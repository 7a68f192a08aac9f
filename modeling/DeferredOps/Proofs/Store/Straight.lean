import DeferredOps.Proofs.Path.Length
import DeferredOps.Proofs.Store.Places

/-!
# Straight paths

An absolute path without the names `.` and `..` is a location. In a store without symbolic links it
leads to what stands there, if it is not too long, and so what it leads to changes only with that entry.
-/

namespace DeferredOps

open Action

/-- An absolute path without `.` and `..`. -/
structure Path.Straight (p : Path) : Prop where
  isAbsolute : p.isAbsolute
  noDots : ∀ name ∈ p.parts, name ≠ "." ∧ name ≠ ".."

theorem Path.Straight.child {p : Path} {name : String} (hp : p.Straight) (hdot : name ≠ ".")
    (hdotDot : name ≠ "..") : (p.child name).Straight where
  isAbsolute := hp.isAbsolute
  noDots n hn := by
    rcases List.mem_append.mp hn with hn | hn
    · exact hp.noDots n hn
    · obtain rfl : n = name := by simpa using hn
      exact ⟨hdot, hdotDot⟩

/-- What is taken from a straight path without `..` is straight. -/
theorem Path.Straight.below {directory p : Path} (hdirectory : directory.Straight)
    (hp : ∀ name ∈ p.parts, name ≠ "." ∧ name ≠ "..") : (Path.below directory p).Straight := by
  unfold Path.below
  split
  · next htop => exact ⟨htop, hp⟩
  · refine ⟨hdirectory.isAbsolute, fun name hname ↦ ?_⟩
    rcases List.mem_append.mp hname with hname | hname
    · exact hdirectory.noDots name hname
    · exact hp name hname

namespace Store

variable {s s' : Store} {last : LastLink} {p : Path} {directory location : Location}
  {names : List String} {name : String} {entry : Entry}

theorem descend_of_noDots (h : ∀ name ∈ names, name ≠ "." ∧ name ≠ "..") :
    descend directory names = directory ++ names := by
  induction names generalizing directory with
  | nil => simp [descend]
  | cons name rest ih =>
    obtain ⟨hdot, hdotDot⟩ := h name List.mem_cons_self
    rw [descend, if_neg hdot, if_neg hdotDot, ih fun n hn ↦ h n (List.mem_cons_of_mem _ hn)]
    simp

theorem place_of_straight (s : Store) (hp : p.Straight) : s.place p = p.parts := by
  unfold place start
  rw [if_pos hp.isAbsolute, descend_of_noDots hp.noDots, List.nil_append]

/-- Names of directories that are there lead down. -/
theorem Leads.of_there {t : Target} {front : List String} (hs : s.WellFormed)
    (hdirectory : s.entry? directory = some .dir) (hthere : s.entry? (directory ++ front) = some .dir)
    (h : s.Leads last links (directory ++ front) names t) :
    s.Leads last links directory (front ++ names) t := by
  induction front generalizing directory with
  | nil => simpa using h
  | cons name rest ih =>
    rw [List.append_cons] at hthere h
    have hmiddle := hs.dir_of_prefix hthere (List.prefix_append ..)
    have hname := hs.name hmiddle
    exact .enter (hs.lookedUp hdirectory hname) hmiddle (ih hmiddle hthere h)

/-- Names lead to what stands behind them, unless that is a symbolic link. -/
theorem leads_of_entry (hs : s.WellFormed) (hdirectory : s.entry? directory = some .dir)
    (hentry : s.entry? (directory ++ names) = some entry) (hlink : entry.isLink = false) :
    s.Leads last 0 directory names (.found (directory ++ names) entry) := by
  rcases List.eq_nil_or_concat names with rfl | ⟨front, name, rfl⟩
  · rw [List.append_nil] at hentry ⊢
    cases hdirectory.symm.trans hentry
    exact .done
  · rw [List.concat_eq_append, ← List.append_assoc] at hentry ⊢
    have hfront := hs.parent hentry
    have hname := hs.lookedUp hfront (hs.name hentry)
    refine Leads.of_there hs hdirectory hfront ?_
    cases entry with
    | dir => exact .enter hname hentry .done
    | file => exact .file hname hentry
    | link => cases hlink

/-- A straight path leads to the entry at its location. -/
theorem target_straight_iff (hs : s.WellFormed) (hway : s.NoLinksTo p.parts) (hp : p.Straight) :
    s.target last p = .ok (.found location entry) ↔
      p.text.utf8ByteSize < pathLimit ∧ location = p.parts ∧ s.entry? location = some entry := by
  rw [target_eq_ok_iff]
  refine and_congr_right fun _ ↦ ⟨fun h ↦ ?_, fun ⟨hlocation, hentry⟩ ↦ ?_⟩
  · have hstart : s.start p = [] := by rw [start, if_pos hp.isAbsolute]
    rw [hstart] at h
    exact ⟨h.location_eq_append hp.noDots hway, h.found_there hs rfl⟩
  · have hlink : entry.isLink = false := by
      cases entry with
      | link text => exact absurd (hlocation ▸ hentry) (hway.here text)
      | dir | file => rfl
    subst hlocation
    rw [start, if_pos hp.isAbsolute]
    exact (leads_of_entry hs rfl (by simpa using hentry) hlink).mono (Nat.zero_le _)

/-- A straight path to an entry has a last name, unless it is the one of the top. -/
theorem slot_of_straight (hs : s.WellFormed) (hp : p.Straight)
    (hshort : p.text.utf8ByteSize < pathLimit) (hparts : p.parts = directory ++ [name])
    (hentry : s.entry? p.parts = some entry) : s.slot p = .ok (.name directory name) := by
  rw [hparts] at hentry
  have hname := hs.name hentry
  have hdirectory := hs.parent hentry
  refine slot_eq_name_iff.mpr ⟨hshort, directory, hparts, ?_, hname.ne_dot, hname.ne_dotDot,
    hs.not_isRemoved hdirectory, hname.short⟩
  rw [start, if_pos hp.isAbsolute]
  exact (leads_of_entry hs rfl (by simpa using hdirectory) rfl).mono (Nat.zero_le _)

/-- The file that a straight path leads to can be removed. -/
theorem unlink_of_straight (hs : s.WellFormed) (hp : p.Straight)
    (hshort : p.text.utf8ByteSize < pathLimit) (hentry : s.entry? p.parts = some entry)
    (hfile : entry.isDir = false) : s.unlink p = .ok (s.erase p.parts) := by
  rcases List.eq_nil_or_concat p.parts with hnil | ⟨directory, name, hparts⟩
  · rw [hnil] at hentry
    cases hentry
    cases hfile
  rw [List.concat_eq_append] at hparts
  have hslot := slot_of_straight hs hp hshort hparts hentry
  rw [hparts] at hentry ⊢
  refine unlink_eq_ok_iff.mpr ⟨directory, name, entry, hslot, hentry, ?_, rfl⟩
  rintro rfl
  cases hfile

end Store

end DeferredOps
