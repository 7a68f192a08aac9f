import DeferredOps.Proofs.Store.Moves
import DeferredOps.Proofs.Store.Spelling

/-!
# How far names can lead down

Names of entries lead down from one directory to the next until a symbolic link takes them elsewhere.
Directories lie no deeper than there are entries, and only forty links are followed, so a path that
leads to a directory has a bounded number of such names at its end. The limit on the text of a path
bounds them too, whatever the store holds.
-/

namespace DeferredOps.Store

variable {s : Store} {last : LastLink} {links : ℕ} {directory location : Location} {names : List String}
  {p : Path}

/-- Each symbolic link that is followed allows as many names more as there are entries, and the name of
the link. -/
theorem Leads.length_le (hs : s.WellFormed) (hdirectory : s.entry? directory = some .dir)
    (hnames : ∀ name ∈ names, IsName name)
    (h : s.Leads last links directory names (.found location .dir)) :
    directory.length + names.length ≤ s.entries.length + links * (s.entries.length + 1) := by
  induction links using Nat.strong_induction_on generalizing directory names with
  | _ links ih =>
  induction names generalizing directory with
  | nil =>
    have hdepth := length_le_of_entry? hs hdirectory
    rw [List.length_nil]
    omega
  | cons name rest ihrest =>
    have hname := hnames name List.mem_cons_self
    have hrest : ∀ n ∈ rest, IsName n := fun n hn ↦ hnames n (List.mem_cons_of_mem _ hn)
    cases h with
    | dot => exact absurd rfl hname.ne_dot
    | dotDot => exact absurd rfl hname.ne_dotDot
    | enter _ hentry h =>
      have hbelow := ihrest hentry hrest h
      simp only [List.length_append, List.length_cons] at hbelow ⊢
      omega
    | @follow _ left _ _ _ text _ _ hentry _ _ h =>
      have hdepth := length_le_of_entry? hs hdirectory
      rw [Nat.succ_mul, List.length_cons]
      by_cases hnil : rest = []
      · subst hnil
        rw [List.length_nil]
        omega
      -- After the link the rest is followed from a directory that is there, over fewer links.
      obtain ⟨middle, more, hmore, hfront, hback⟩ := h.split hnil
      have hstart : s.entry? (linkStart text directory) = some .dir := by
        unfold linkStart
        split
        · rfl
        · exact hdirectory
      have hmiddle := hfront.found_there hs hstart
      have hbelow := ih left (Nat.lt_succ_self left) hmiddle hrest (hback.mono hmore)
      omega

/-- How many names of entries can lead down at the end of a path. -/
def depthBound (s : Store) : ℕ :=
  linkLimit + (linkLimit + 1) * s.entries.length

theorem length_le_of_isDirectory (hs : s.WellFormed) (hnames : ∀ name ∈ names, IsName name)
    (h : s.isDirectory (p.extend names) = .ok true) : names.length ≤ s.depthBound := by
  by_cases hnil : names = []
  · simp [hnil]
  obtain ⟨-, location, hfound⟩ := StoreAction.isDirectory_eq_true_iff.mp h
  have hleads := (target_eq_ok_iff.mp hfound).2
  rw [Path.parts_extend] at hleads
  obtain ⟨middle, more, hmore, hfront, hback⟩ := hleads.split hnil
  have hthere : s.entry? middle = some .dir := by
    refine (hfront.sound hs (standing_start hs _)).resolve_right ?_
    rintro ⟨-, hremoved, -⟩
    -- No name is looked up in a directory that has been removed.
    obtain ⟨name, rest, rfl⟩ := List.exists_cons_of_ne_nil hnil
    have hname := hnames name List.mem_cons_self
    have hlooked : LookedUp middle name := by
      cases hback with
      | dot => exact absurd rfl hname.ne_dot
      | dotDot => exact absurd rfl hname.ne_dotDot
      | enter hlooked => exact hlooked
      | follow hlooked => exact hlooked
    simp [hlooked.there] at hremoved
  have hlength := (hback.mono hmore).length_le hs hthere hnames
  unfold depthBound
  rw [Nat.mul_add, Nat.mul_one] at hlength
  rw [Nat.add_mul, Nat.one_mul]
  omega

/-- Each name takes at least two bytes of the text. -/
theorem length_le_of_short (hnames : ∀ name ∈ names, IsName name)
    (h : s.isDirectory (p.extend names) = .ok true) : names.length ≤ pathLimit / 2 := by
  obtain ⟨-, location, hfound⟩ := StoreAction.isDirectory_eq_true_iff.mp h
  have hshort := (target_eq_ok_iff.mp hfound).1
  have hsize : 2 * names.length ≤ Path.namesSize names := by
    clear hfound h hshort
    induction names with
    | nil => simp
    | cons name rest ih =>
      have hrest := ih fun n hn ↦ hnames n (List.mem_cons_of_mem _ hn)
      have hname : name.utf8ByteSize ≠ 0 := by
        rw [Ne, String.utf8ByteSize_eq_zero_iff]
        exact (hnames name List.mem_cons_self).ne_empty
      rw [Path.namesSize_cons, List.length_cons]
      omega
  by_cases hnil : names = []
  · simp [hnil]
  have htext := Path.size_text (p := p.extend names) (by simp [hnil])
  rw [Path.parts_extend, Path.namesSize_append] at htext
  have hlimit : pathLimit = 4096 := rfl
  omega

end DeferredOps.Store
