import DeferredOps.Proofs.Store.Transfer

/-!
# Numbers of files

A new file gets a number that no file has. Every action keeps this: it moves, removes or changes files
with the numbers that they have, or makes a file with the next one.
-/

namespace DeferredOps.Store

/-- Every file has a number that the next new file does not get. -/
def Numbered (s : Store) : Prop :=
  ∀ l id content, s.entry? l = some (.file id content) → id < s.freshId

variable {s s' : Store} {p : Path} {location : Location} {entry : Entry}

theorem Numbered.of_entries (h : ∀ e ∈ s.entries, ∀ id content, e.2 = .file id content → id < s.freshId) :
    s.Numbered := by
  intro l id content hl
  by_cases hne : l = []
  · subst hne
    cases hl
  · exact h _ (mem_entries hne hl) id content rfl

theorem numbered_empty : empty.Numbered := .of_entries (by simp [empty])

/-- No number is new. -/
theorem Numbered.of_old (hs : s.Numbered) (hgrown : s.freshId ≤ s'.freshId)
    (h : ∀ l id content, s'.entry? l = some (.file id content) →
      ∃ l' content', s.entry? l' = some (.file id content')) : s'.Numbered := by
  intro l id content hl
  obtain ⟨l', content', hold⟩ := h l id content hl
  exact (hs l' id content' hold).trans_le hgrown

theorem Numbered.discard (hs : s.Numbered) (gone : Location → Bool) : (s.discard gone).Numbered :=
  hs.of_old (Nat.le_refl _) fun _ _ _ h ↦ ⟨_, _, entry?_of_discard h⟩

theorem Numbered.put (hs : s.Numbered) (hne : location ≠ []) (hentry : entry.isFile = false) :
    (s.put location entry).Numbered := by
  intro l id content h
  rw [entry?_put hne] at h
  split at h
  · cases h
    cases hentry
  · exact hs l id content h

theorem Numbered.setContent (hs : s.Numbered) (id : ℕ) (change : Bytes → Bytes) :
    (s.setContent id change).Numbered := by
  refine hs.of_old (Nat.le_refl _) fun l other content h ↦ ?_
  rw [entry?_setContent] at h
  obtain ⟨old, hold, heq⟩ := Option.map_eq_some_iff.mp h
  cases old with
  | file number content' =>
    obtain ⟨rfl, -⟩ : number = other ∧ _ := by simpa [Entry.withContent] using heq
    exact ⟨l, content', hold⟩
  | dir | link => simp [Entry.withContent] at heq

theorem Numbered.putFile {content : Bytes} (hs : s.Numbered) (hne : location ≠ []) :
    (s.putFile location content).Numbered := by
  intro l id content' h
  rw [entry?_putFile hne] at h
  split at h
  · cases h
    exact Nat.lt_succ_self _
  · exact (hs l id content' h).trans (Nat.lt_succ_self _)

theorem Numbered.write {change : Bytes → Bytes} (hs : s.Numbered) (h : s.write p change = .ok s') :
    s'.Numbered := by
  rcases write_ok h with ⟨l, id, content, -, rfl⟩ | ⟨d, n, -, rfl⟩
  · exact hs.setContent id change
  · exact hs.putFile (by simp)

theorem Numbered.carry {source directory : Location} {name : String} (hs : s.Numbered)
    (hcan : s.CanCarry source directory name) : (s.carry source (directory ++ [name])).Numbered :=
  hs.of_old (Nat.le_refl _) fun _ id _ hl ↦
    hcan.carry_cases (P := fun _ ↦ ∃ l' content', s.entry? l' = some (.file id content'))
      (fun _ hold ↦ ⟨_, _, hold⟩) (fun _ _ hold ↦ ⟨_, _, hold⟩) hl

theorem Numbered.rename {source destination : Path} (hwell : s.WellFormed) (hs : s.Numbered)
    (hproper : destination.Proper) (hnul : destination.hasNul = false)
    (h : s.rename source destination = .ok s') : s'.Numbered := by
  obtain ⟨d, n, d', n', -, hslot, hcarry⟩ := rename_ok h
  have hname := isName_of_slot hproper hnul hslot
  rcases carryChecked_ok hwell (by simp) (dir_of_slot hwell hslot) hname hcarry with
    ⟨rfl, -⟩ | ⟨hcan, rfl, -⟩
  · exact hs
  · exact hs.carry hcan

theorem invariant_numbered : Invariant fun s ↦ s.WellFormed ∧ s.Numbered where
  wellFormed hs := hs.1
  unlink hs h := by
    refine ⟨hs.1.unlink h, ?_⟩
    obtain ⟨d, n, e, -, -, -, rfl⟩ := unlink_eq_ok_iff.mp h
    exact hs.2.discard _
  removeDirectory hs h := by
    refine ⟨hs.1.removeDirectory h, ?_⟩
    obtain ⟨d, n, -, -, -, rfl⟩ := removeDirectory_ok h
    exact hs.2.discard _
  clear hs := ⟨hs.1.clear, hs.2.discard _⟩
  makeDirectory hs hp hnul h := by
    refine ⟨invariant_wellFormed.makeDirectory hs.1 hp hnul h, ?_⟩
    obtain ⟨d, n, -, -, rfl⟩ := create_eq_ok_iff.mp h
    exact hs.2.put (by simp) rfl
  makeLink hs hp hnul hold htext h := by
    refine ⟨invariant_wellFormed.makeLink hs.1 hp hnul hold.1 htext h, ?_⟩
    obtain ⟨d, n, -, -, rfl⟩ := create_eq_ok_iff.mp h
    exact hs.2.put (by simp) rfl
  write hs hp hnul h := ⟨hs.1.write hp hnul h, hs.2.write h⟩
  rename hs htarget hnul h := ⟨hs.1.rename htarget hnul h, hs.2.rename hs.1 htarget hnul h⟩
  openFile hs := ⟨hs.1.openFile _ _, hs.2⟩
  closeFile hs := ⟨hs.1.closeFile _, hs.2⟩

end DeferredOps.Store
