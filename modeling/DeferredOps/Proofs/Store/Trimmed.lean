import DeferredOps.Proofs.Store.Rewriting
import DeferredOps.Proofs.Store.Transfer

/-!
# What a deletion can reach

A deletion takes away what its path names, without following a symbolic link there, and what lies below
a directory that it names. Beside that, reports may go to an event file in the same store. Whatever is not meant
by the path stays, however the two are interleaved.
-/

namespace DeferredOps

namespace Store

/-- The path means a location to be deleted: it is that of its last name, or it lies below the directory that
the path leads to. A symbolic link at the end of the path is not followed. -/
def Meant (s : Store) (p : Path) (l : Location) : Prop :=
  (∃ d n, s.slot p = .ok (.name d n) ∧ l = d ++ [n]) ∨
    ∃ place, s.target .kept p = .ok (.found place .dir) ∧ place <+: l ∧ l ≠ place

/-- A number is that of the file that a path leads to, or a new one. -/
def ReportsTo (s : Store) (file : Path) (id : ℕ) : Prop :=
  s.freshId ≤ id ∨ ∃ content, s.file file = .ok (id, content)

/-- An entry is the event file, if there is one. -/
def IsReported (s : Store) (file? : Option Path) (e : Entry) : Prop :=
  ∃ file id content, file? = some file ∧ e = .file id content ∧ s.ReportsTo file id

/-- An entry has stayed. The event file may have another content. -/
def Renewed (s : Store) (file? : Option Path) (e e' : Entry) : Prop :=
  e' = e ∨ ∃ file id content content', file? = some file ∧ e = .file id content ∧ e' = .file id content' ∧
    s.ReportsTo file id

/-- Only entries at some locations have been taken away, and only the event file has been written to. -/
structure Trimmed (s : Store) (file? : Option Path) (gone : Location → Prop) (s' : Store) : Prop where
  wellFormed : s'.WellFormed
  freshId : s.freshId ≤ s'.freshId
  stays {l e} (hl : ¬ gone l) (h : s.entry? l = some e) :
    ∃ e', s'.entry? l = some e' ∧ s.Renewed file? e e'
  old {l e} (h : s'.entry? l = some e) : s.entry? l = some e ∨ s.IsReported file? e
  event {file id content} (hfile : file? = some file) (h : s'.file file = .ok (id, content)) :
    s.ReportsTo file id

variable {s s' s'' : Store} {file? : Option Path} {gone : Location → Prop} {out : Location → Bool}
  {last : LastLink} {links : ℕ} {directory directory' location : Location} {names : List String}
  {entry : Entry} {p file : Path}

/-! ## Questions -/

theorem file_eq_ok_iff {id : ℕ} {content : Bytes} : s.file p = .ok (id, content) ↔
    ∃ l, s.target .followed p = .ok (.found l (.file id content)) := by
  refine ⟨file_ok, ?_⟩
  rintro ⟨l, htarget⟩
  rw [file, htarget]
  rfl

/-- What is found when entries have gone away was found there before. -/
theorem Leads.of_marked (hs : s.WellFormed) (hout : s.ClosedBelow out)
    (h : (s.discard out).Leads last links directory' names (.found location entry))
    (hd : s.Standing directory) (hmarked : MaybeMarked out directory directory')
    (hthere : isRemoved location = false) :
    s.Leads last links directory names (.found location entry) := by
  generalize ht : Target.found location entry = t at h
  induction h generalizing directory with
  | done =>
    cases ht
    obtain rfl := hmarked.eq hs hout hd hthere
    exact .done
  | dot _ ih => exact .dot (ih hd hmarked ht)
  | dotDot _ ih => exact .dotDot (ih hd.dropLast hmarked.dropLast ht)
  | absent => cases ht
  | enter hname hentry _ ih =>
    obtain rfl := hmarked.eq hs hout hd hname.there
    have hold := entry?_of_discard hentry
    exact .enter hname hold (ih (hs.standing_of_dir hold) (.inl rfl) ht)
  | file hname hentry =>
    obtain rfl := hmarked.eq hs hout hd hname.there
    cases ht
    exact .file hname (entry?_of_discard hentry)
  | kept hname hentry =>
    obtain rfl := hmarked.eq hs hout hd hname.there
    cases ht
    exact .kept hname (entry?_of_discard hentry)
  | follow hname hentry hkept hwritten _ ih =>
    obtain rfl := hmarked.eq hs hout hd hname.there
    exact .follow hname (entry?_of_discard hentry) hkept hwritten
      (ih (standing_linkStart hd _) (.inl rfl) ht)

theorem file_of_discard (hs : s.WellFormed) (hout : s.ClosedBelow out) {id : ℕ} {content : Bytes}
    (h : (s.discard out).file p = .ok (id, content)) : s.file p = .ok (id, content) := by
  obtain ⟨l, htarget⟩ := file_eq_ok_iff.mp h
  obtain ⟨hshort, hleads⟩ := target_eq_ok_iff.mp htarget
  have hdiscard := hs.discard hout
  have hthere : Store.entry? (s.discard out) l = some (.file id content) :=
    (sound_of_target hdiscard htarget).resolve_right (by simp)
  have hmarked : MaybeMarked out (s.start p) ((s.discard out).start p) :=
    MaybeMarked.start (.inr rfl) p
  refine file_eq_ok_iff.mpr ⟨l, target_eq_ok_iff.mpr ⟨hshort, ?_⟩⟩
  exact hleads.of_marked hs hout (standing_start hs p) hmarked (hdiscard.not_isRemoved hthere)

/-- The file that a path leads to after a write it led to before, or it is the file that was made. -/
theorem Rewritten.file_cases (h : s.Rewritten s') {id : ℕ} {content : Bytes}
    (hfile : s'.file p = .ok (id, content)) :
    (∃ content', s.file p = .ok (id, content')) ∨
      ∃ l, s.entry? l = none ∧ s'.entry? l = some (.file id content) := by
  obtain ⟨l, htarget⟩ := file_eq_ok_iff.mp hfile
  have hthere : s'.entry? l = some (.file id content) :=
    (sound_of_target h.wellFormed htarget).resolve_right (by simp)
  cases hentry : s.entry? l with
  | none => exact .inr ⟨l, hentry, hthere⟩
  | some e =>
    obtain ⟨content', rfl⟩ : ∃ content', e = .file id content' := by
      cases e with
      | file other content' =>
        obtain ⟨_, hkept⟩ := h.file hentry
        cases hthere.symm.trans hkept
        exact ⟨content', rfl⟩
      | dir | link => cases hthere.symm.trans (h.kept hentry rfl)
    obtain ⟨hshort, hleads⟩ := target_eq_ok_iff.mp htarget
    rw [h.start] at hleads
    have hend : if Entry.isFile (.file id content) then
        Entry.isFile (.file id content') ∧ s.entry? l = some (.file id content')
        else Entry.file id content' = .file id content := ⟨rfl, hentry⟩
    have hbefore := hleads.of_ways (fun _ _ ↦ h.old) hend
    exact .inl ⟨content', file_eq_ok_iff.mpr ⟨l, target_eq_ok_iff.mpr ⟨hshort, hbefore⟩⟩⟩

/-! ## What is meant -/

/-- A write to a file does not change what a path means. -/
theorem Rewritten.meant (h : s.Rewritten s') (hmeant : s'.Meant p location) : s.Meant p location :=
  hmeant.imp (fun ⟨d, n, hslot, heq⟩ ↦ ⟨d, n, h.slot_iff.mp hslot, heq⟩)
    fun ⟨place, htarget, hbelow⟩ ↦ ⟨place, (h.target_iff rfl).mp htarget, hbelow⟩

namespace Trimmed

theorem refl (hs : s.WellFormed) : s.Trimmed file? gone s where
  wellFormed := hs
  freshId := Nat.le_refl _
  stays _ h := ⟨_, h, .inl rfl⟩
  old := .inl
  event _ h := .inr ⟨_, h⟩

theorem discard (h : s.Trimmed file? gone s') (hclosed : s'.ClosedBelow out)
    (hout : ∀ l, out l → gone l) : s.Trimmed file? gone (s'.discard out) where
  wellFormed := h.wellFormed.discard hclosed
  freshId := h.freshId
  stays {l e} hl hentry := by
    obtain ⟨e', hthere, hrenewed⟩ := h.stays hl hentry
    refine ⟨e', ?_, hrenewed⟩
    rw [entry?_discard, if_neg fun hgone ↦ hl (hout l hgone.2), hthere]
  old hentry := h.old (entry?_of_discard hentry)
  event hfile hevent := h.event hfile (file_of_discard h.wellFormed hclosed hevent)

theorem setContent (h : s.Trimmed (some file) gone s') {id : ℕ} (hreports : s.ReportsTo file id)
    (change : Bytes → Bytes) : s.Trimmed (some file) gone (s'.setContent id change) := by
  have hrewritten := rewritten_setContent h.wellFormed id change
  refine ⟨hrewritten.wellFormed, h.freshId, fun {l e} hl hentry ↦ ?_, fun {l e} hentry ↦ ?_,
    fun {other number content} hother hevent ↦ ?_⟩
  · obtain ⟨e', hthere, hrenewed⟩ := h.stays hl hentry
    refine ⟨e'.withContent id change, by rw [entry?_setContent, hthere]; rfl, ?_⟩
    rcases e'.withContent_cases id change with hsame | ⟨old, rfl, hnew⟩
    · rwa [hsame]
    · rw [hnew]
      rcases hrenewed with rfl | ⟨_, _, first, _, -, rfl, heq, -⟩
      · exact .inr ⟨file, id, old, _, rfl, rfl, rfl, hreports⟩
      · cases heq
        exact .inr ⟨file, id, first, _, rfl, rfl, rfl, hreports⟩
  · rw [entry?_setContent] at hentry
    obtain ⟨e', hthere, rfl⟩ := Option.map_eq_some_iff.mp hentry
    rcases e'.withContent_cases id change with hsame | ⟨old, rfl, hnew⟩
    · rw [hsame]
      exact h.old hthere
    · rw [hnew]
      exact .inr ⟨file, id, _, rfl, rfl, hreports⟩
  · rcases hrewritten.file_cases hevent with ⟨_, hbefore⟩ | ⟨l, hnone, hmade⟩
    · exact h.event hother hbefore
    · rw [entry?_setContent, hnone] at hmade
      cases hmade

theorem putFile {name : String} {content : Bytes} (h : s.Trimmed (some file) gone s')
    (hdirectory : s'.entry? directory = some .dir) (hname : IsName name)
    (hfree : s'.entry? (directory ++ [name]) = none) :
    s.Trimmed (some file) gone (s'.putFile (directory ++ [name]) content) := by
  have hrewritten : s'.Rewritten (s'.putFile (directory ++ [name]) content) :=
    rewritten_putFile h.wellFormed hdirectory hname hfree
  have hput {l : Location} {e : Entry}
      (hentry : entry? (s'.putFile (directory ++ [name]) content) l = some e) :
      e = .file s'.freshId content ∨ s'.entry? l = some e := by
    rw [entry?_putFile (by simp)] at hentry
    split at hentry
    · exact .inl (Option.some.inj hentry).symm
    · exact .inr hentry
  refine ⟨hrewritten.wellFormed, h.freshId.trans (Nat.le_succ _), fun {l e} hl hentry ↦ ?_,
    fun {l e} hentry ↦ ?_, fun {other number content} hother hevent ↦ ?_⟩
  · obtain ⟨e', hthere, hrenewed⟩ := h.stays hl hentry
    refine ⟨e', ?_, hrenewed⟩
    rw [entry?_putFile (by simp), if_neg, hthere]
    rintro rfl
    cases hfree.symm.trans hthere
  · rcases hput hentry with rfl | hthere
    · exact .inr ⟨file, _, _, rfl, rfl, .inl h.freshId⟩
    · exact h.old hthere
  · rcases hrewritten.file_cases hevent with ⟨_, hbefore⟩ | ⟨l, hnone, hmade⟩
    · exact h.event hother hbefore
    · rcases hput hmade with heq | hthere
      · cases heq
        exact .inl h.freshId
      · cases hnone.symm.trans hthere

/-- One more report is written to the event file. -/
theorem write (h : s.Trimmed (some file) gone s') (hp : file.Proper) (hnul : file.hasNul = false)
    {change : Bytes → Bytes} (hwrite : s'.write file change = .ok s'') :
    s.Trimmed (some file) gone s'' := by
  rcases write_ok hwrite with ⟨l, id, content, htarget, rfl⟩ | ⟨d, n, htarget, rfl⟩
  · have hfile : s'.file file = .ok (id, content) := by
      refine file_eq_ok_iff.mpr ⟨l, ?_⟩
      rw [target_eq_ok_iff] at htarget ⊢
      exact htarget.imp_right Leads.followed_of_written
    exact h.setContent (h.event rfl hfile) change
  · obtain ⟨hdirectory, -, hfree⟩ := sound_of_target h.wellFormed htarget
    exact h.putFile hdirectory (isName_of_target_absent h.wellFormed hp hnul htarget) hfree

/-- The removal of a name that is no directory takes away what is meant. -/
theorem unlink (h : s.Trimmed file? (s.Meant p) s') (hrewritten : s.Rewritten s')
    (hunlink : s'.unlink p = .ok s'') : s.Trimmed file? (s.Meant p) s'' := by
  obtain ⟨d, n, e, hslot, hentry, hne, rfl⟩ := unlink_eq_ok_iff.mp hunlink
  refine h.discard (closedBelow_erase fun name ↦ ?_) fun l hl ↦ ?_
  · exact h.wellFormed.none_of_append (by simp) (by simpa [hentry] using hne)
  · exact hrewritten.meant (.inl ⟨d, n, hslot, by simpa using hl⟩)

/-- So does the removal of a directory, also when it ends before the directory itself is gone. -/
theorem removal (h : s.Trimmed file? (s.Meant p) s') (hrewritten : s.Rewritten s')
    {result : Except Failure Unit} (hends : StoreAction.RemovalEnds s' p result s'') :
    s.Trimmed file? (s.Meant p) s'' := by
  have hclear {l : Location} (htarget : s'.target .kept p = .ok (.found l .dir)) :
      s.Trimmed file? (s.Meant p) (s'.clear l) := by
    refine h.discard closedBelow_clear fun other hother ↦ hrewritten.meant (.inr ⟨l, htarget, ?_⟩)
    exact isStrictlyBelow_iff.mp hother
  cases hends with
  | refused => exact h
  | emptied htarget => exact hclear htarget
  | removed htarget hremove =>
    obtain ⟨d, n, hlies, -, hfound, -, rfl⟩ :=
      StoreAction.RemovalEnds.removed_dir h.wellFormed (.removed htarget hremove)
    have hslot : s'.slot p = .ok (.name d n) := by
      obtain ⟨front, hparts, hfront⟩ := hlies.leads
      exact slot_eq_name_iff.mpr ⟨(target_eq_ok_iff.mp hfound).1, front, hparts, hfront, hlies.lookedUp⟩
    refine (hclear hfound).discard (closedBelow_erase fun name ↦ ?_) fun l hl ↦ ?_
    · rw [entry?_clear, if_pos]
      exact isStrictlyBelow_iff.mpr ⟨List.prefix_append _ _, by simp⟩
    · exact hrewritten.meant (.inl ⟨d, n, hslot, by simpa using hl⟩)

end Trimmed

end Store

end DeferredOps
