import DeferredOps.Proofs.Store.Rewriting

/-!
# What has been written is read

A path to which a file can be written leads to a file, or to a name that is free in a directory; symbolic
links on the way may lead there. After a write the path leads to a file with what has been written, it can
be written to again, and the content is read from it.
-/

namespace DeferredOps.Store

variable {s s' : Store} {last : LastLink} {links : ℕ} {directory d : Location} {name : String}
  {names : List String} {p : Path} {content : Bytes}

/-- A path that leads to a file with this content when it is written to. -/
def HasContent (s : Store) (p : Path) (content : Bytes) : Prop :=
  ∃ location id, s.target .written p = .ok (.found location (.file id content))

/-- A path to which a file can be written, with the content so far; a file that is not there has none. -/
def Writable (s : Store) (p : Path) (content : Bytes) : Prop :=
  (content = [] ∧ ∃ directory name, s.target .written p = .ok (.absent directory name)) ∨
    s.HasContent p content

theorem Writable.hasContent (h : s.Writable p content) (hne : content ≠ []) : s.HasContent p content :=
  h.resolve_left fun hnone ↦ hne hnone.1

theorem HasContent.read (h : s.HasContent p content) : s.read p = .ok content := by
  obtain ⟨location, id, htarget⟩ := h
  have hfollowed : s.target .followed p = .ok (.found location (.file id content)) := by
    rw [target_eq_ok_iff] at htarget ⊢
    exact ⟨htarget.1, htarget.2.followed_of_written⟩
  simp only [Store.read, file, hfollowed]
  rfl

theorem HasContent.isFile (h : s.HasContent p content) (hclean : p.hasNul = false) :
    s.isFile p = .ok true := by
  obtain ⟨location, id, htarget⟩ := h
  exact isFile_eq_true_iff.mpr ⟨hclean, location, id, content, target_eq_ok_iff.mpr
    ((target_eq_ok_iff.mp htarget).imp_right Leads.followed_of_written)⟩

/-- The last name of a path is there once a file has been written there. -/
theorem entry?_ne_none_of_write {change : Bytes → Bytes} (hslot : s.slot p = .ok (.name directory name))
    (h : s.write p change = .ok s') : s'.entry? (directory ++ [name]) ≠ none := by
  intro hnone
  rcases write_ok h with ⟨_, id, content, hfound, rfl⟩ | ⟨d, n, habsent, rfl⟩
  · rw [entry?_setContent, Option.map_eq_none_iff] at hnone
    cases hfound.symm.trans (target_of_free hslot hnone)
  · rw [entry?_putFile (by simp)] at hnone
    split at hnone
    · cases hnone
    · next hother =>
      cases habsent.symm.trans (target_of_free hslot hnone)
      exact hother rfl

/-- A way to a free name leads to the file that is put there. -/
theorem Leads.found_of_absent {id : ℕ} (h : s.Leads last links directory names (.absent d name))
    (hkept : ∀ l e, s.entry? l = some e → s'.entry? l = some e)
    (hnew : s'.entry? (d ++ [name]) = some (.file id content)) :
    s'.Leads last links directory names (.found (d ++ [name]) (.file id content)) := by
  generalize ht : Target.absent d name = t at h
  induction h with
  | done | file | kept => cases ht
  | dot _ ih => exact .dot (ih ht)
  | dotDot _ ih => exact .dotDot (ih ht)
  | absent hname =>
    cases ht
    exact .file hname hnew
  | enter hname hentry _ ih => exact .enter hname (hkept _ _ hentry) (ih ht)
  | follow hname hentry hlast hwritten _ ih =>
    exact .follow hname (hkept _ _ hentry) hlast hwritten (ih ht)

theorem hasContent_setContent (hs : s.WellFormed) {location : Location} {id : ℕ}
    (htarget : s.target .written p = .ok (.found location (.file id content))) (change : Bytes → Bytes) :
    (s.setContent id change).HasContent p (change content) := by
  have hrewritten := rewritten_setContent hs id change
  have hentry : s.entry? location = some (.file id content) :=
    (sound_of_target hs htarget).resolve_right (by simp)
  have hchanged : entry? (s.setContent id change) location = some (.file id (change content)) := by
    rw [entry?_setContent, hentry]
    simp [Entry.withContent]
  refine ⟨location, id, ?_⟩
  rw [target_eq_ok_iff] at htarget ⊢
  rw [hrewritten.start]
  exact ⟨htarget.1, htarget.2.of_ways (fun _ _ ↦ hrewritten.kept) (by simp [Entry.isFile, hchanged])⟩

theorem hasContent_putFile (hs : s.WellFormed) (htarget : s.target .written p = .ok (.absent d name))
    (content : Bytes) : (s.putFile (d ++ [name]) content).HasContent p content := by
  obtain ⟨-, -, hfree⟩ := sound_of_target hs htarget
  have hkept {l : Location} {e : Entry} (h : s.entry? l = some e) :
      entry? (s.putFile (d ++ [name]) content) l = some e := by
    rw [entry?_putFile (by simp), if_neg, h]
    rintro rfl
    cases hfree.symm.trans h
  refine ⟨d ++ [name], s.freshId, ?_⟩
  rw [target_eq_ok_iff] at htarget ⊢
  have hstart : start (s.putFile (d ++ [name]) content) p = s.start p := start_of_current (.inr rfl)
  rw [hstart]
  exact ⟨htarget.1, htarget.2.found_of_absent (fun _ _ ↦ hkept) (by rw [entry?_putFile (by simp), if_pos rfl])⟩

/-- A write succeeds, and what it has written is there. -/
theorem Writable.write (h : s.Writable p content) (hs : s.WellFormed) (hp : p.Proper) (hnul : p.hasNul = false)
    (change : Bytes → Bytes) :
    ∃ s', s.write p change = .ok s' ∧ s'.WellFormed ∧ s'.HasContent p (change content) := by
  obtain ⟨rfl, d, name, htarget⟩ | ⟨location, id, htarget⟩ := h
  · have hwrite : s.write p change = .ok (s.putFile (d ++ [name]) (change [])) := by
      simp [Store.write, htarget, bind, Except.bind, pure, Except.pure]
    exact ⟨_, hwrite, (rewritten_write hs hp hnul hwrite).wellFormed, hasContent_putFile hs htarget _⟩
  · have hwrite : s.write p change = .ok (s.setContent id change) := by
      simp [Store.write, htarget, bind, Except.bind, pure, Except.pure]
    exact ⟨_, hwrite, (rewritten_write hs hp hnul hwrite).wellFormed, hasContent_setContent hs htarget change⟩

end DeferredOps.Store
