import DeferredOps.Proofs.Store.Contents
import DeferredOps.Proofs.Store.Delivery

/-!
# Places after a removal

A path can start in a directory that is removed. In a store without symbolic links it still leads to
the same place, if that is not a place that went away. So what is at a path is moved to the place
that was cleared for it, and nothing else is touched.
-/

namespace DeferredOps

namespace Store

/-- Outside two locations nothing has changed but that directories have been made on the way of a
path. -/
def KeptOutside (s : Store) (origin target : Location) (p : Path) (s' : Store) : Prop :=
  ∀ l, ¬ origin <+: l → ¬ target <+: l → s'.entry? l = s.entry? l ∨
    s.entry? l = none ∧ s'.entry? l = some .dir ∧
      ∃ front, front <+: p.parts ∧ l = s.place ⟨p.anchor, front⟩

/-- One location is another one, or what is left of it when a name on the way to it is removed. -/
def Retraces (directory : Location) (name : String) (location location' : Location) : Prop :=
  location' = location ∨ ∃ rest rest', location = directory ++ [name] ++ rest ∧
    location' = directory ++ [""] ++ rest' ∧ rest'.length = rest.length

variable {s s' : Store} {location location' directory : Location} {name : String}
  {names : List String} {p : Path}

theorem markRemoved_append (gone : Location → Bool) (before front back : Location) :
    markRemoved gone before (front ++ back) =
      markRemoved gone before front ++ markRemoved gone (before ++ front) back := by
  induction front generalizing before with
  | nil => simp [markRemoved]
  | cons name rest ih => simp [markRemoved, ih]

theorem MaybeMarked.retraces
    (h : MaybeMarked ((directory ++ [name]).isPrefixOf ·) location location') :
    Retraces directory name location location' := by
  rcases h with rfl | rfl
  · exact .inl rfl
  have hself {l : Location} (hl : ¬ directory ++ [name] <+: l) :
      markRemoved ((directory ++ [name]).isPrefixOf ·) [] l = l := by
    refine markRemoved_eq_self fun q hq _ ↦ ?_
    rw [List.nil_append, Bool.eq_false_iff, ne_eq, List.isPrefixOf_iff_prefix]
    exact fun h ↦ hl (h.trans hq)
  by_cases hbelow : directory ++ [name] <+: location
  · obtain ⟨rest, rfl⟩ := hbelow
    refine .inr ⟨rest, markRemoved ((directory ++ [name]).isPrefixOf ·) (directory ++ [name]) rest,
      rfl, ?_, length_markRemoved ..⟩
    rw [markRemoved_append, markRemoved_concat, hself not_concat_prefix]
    simp
  · exact .inl (hself hbelow)

namespace Retraces

theorem dropLast (h : Retraces directory name location location') :
    Retraces directory name location.dropLast location'.dropLast := by
  rcases h with rfl | ⟨rest, rest', rfl, rfl, hlength⟩
  · exact .inl rfl
  · by_cases hrest : rest = []
    · obtain rfl : rest' = [] := List.length_eq_zero_iff.mp (by simp [hlength, hrest])
      simp [hrest, Retraces]
    · have hrest' : rest' ≠ [] := by
        rintro rfl
        exact hrest (List.length_eq_zero_iff.mp hlength.symm)
      exact .inr ⟨rest.dropLast, rest'.dropLast, List.dropLast_append_of_ne_nil hrest,
        List.dropLast_append_of_ne_nil hrest', by simp [hlength]⟩

theorem concat (h : Retraces directory name location location') (last : String) :
    Retraces directory name (location ++ [last]) (location' ++ [last]) := by
  rcases h with rfl | ⟨rest, rest', rfl, rfl, hlength⟩
  · exact .inl rfl
  · exact .inr ⟨rest ++ [last], rest' ++ [last], by simp, by simp, by simp [hlength]⟩

theorem descend (h : Retraces directory name location location') :
    Retraces directory name (descend location names) (Store.descend location' names) := by
  induction names generalizing location location' with
  | nil => exact h
  | cons first rest ih =>
    unfold Store.descend
    split
    · exact ih h
    · split
      · exact ih h.dropLast
      · exact ih (h.concat first)

/-- Apart from what is removed nothing changes. -/
theorem eq_of_apart (h : Retraces directory name location location')
    (hapart : ¬ directory ++ [name] <+: location) : location' = location :=
  h.resolve_right fun ⟨rest, _, heq, _⟩ ↦ hapart ⟨rest, heq.symm⟩

/-- A location with names only has not changed. -/
theorem eq_of_names (h : Retraces directory name location location') (hnames : "" ∉ location') :
    location' = location :=
  h.resolve_right fun ⟨_, rest', _, heq, _⟩ ↦ hnames (by simp [heq])

end Retraces

theorem Lies.place_eq (h : s.Lies p directory name) (hfree : s.LinkFree) :
    s.place p = directory ++ [name] := by
  obtain ⟨⟨front, hparts, hfront⟩, hname⟩ := h
  have hplace : descend (s.start p) front = directory := (hfront.location_eq hfree).symm
  rw [place, hparts, descend_append, hplace, descend, if_neg hname.ne_dot, if_neg hname.ne_dotDot,
    descend]

namespace TakenOut

theorem retraces (h : s.TakenOut (directory ++ [name]) s') (p : Path) :
    Retraces directory name (s.place p) (s'.place p) :=
  ((h.current.start p).retraces).descend

theorem place_eq (h : s.TakenOut (directory ++ [name]) s')
    (hapart : ¬ directory ++ [name] <+: s.place p) : s'.place p = s.place p :=
  (h.retraces p).eq_of_apart hapart

/-- A path still leads to the place from where something was taken out. -/
theorem place_of_lies (h : s.TakenOut (directory ++ [name]) s') (hfree : s.LinkFree)
    (hlies : s.Lies p directory name) : s'.place p = directory ++ [name] := by
  obtain ⟨⟨front, hparts, hfront⟩, hname⟩ := hlies
  have hplace : s.place ⟨p.anchor, front⟩ = directory := (hfront.location_eq hfree).symm
  have hplace' : s'.place ⟨p.anchor, front⟩ = directory := by
    rw [h.place_eq, hplace]
    rw [hplace]
    exact not_concat_prefix
  have hchild : p = Path.child ⟨p.anchor, front⟩ name := by
    cases p
    simp_all [Path.child]
  rw [hchild, place_child _ hname.ne_dot hname.ne_dotDot, hplace']

theorem pruned (h : s.TakenOut (directory ++ [name]) s') : s.Pruned (directory ++ [name]) s' where
  kept hl hentry := by rw [h.entry?, if_neg hl, hentry]
  current hl := h.current.retraces.eq_of_apart hl

theorem linkFree (h : s.TakenOut location s') (hfree : s.LinkFree) : s'.LinkFree := by
  intro l text
  rw [h.entry?]
  split
  · simp
  · exact hfree l text

end TakenOut

/-! ## What lies outside -/

theorem Passes.place (h : s.Passes p location) (hfree : s.LinkFree) :
    ∃ front, front <+: p.parts ∧ location = s.place ⟨p.anchor, front⟩ := by
  obtain ⟨t, hlinks, hstart, front, hfront, hleads⟩ := h
  rw [hstart] at hleads
  exact ⟨front, hfront, hleads.location_eq (hfree.of_sameLinks hlinks)⟩

theorem KeptOutside.refl (s : Store) (origin target : Location) (p : Path) :
    s.KeptOutside origin target p s :=
  fun _ _ _ ↦ .inl rfl

theorem Confined.keptOutside {origin target : Location} (h : s.Confined origin p target s')
    (hfree : s.LinkFree) : s.KeptOutside origin target p s' := by
  intro l horigin htarget
  cases hentry : s.entry? l with
  | some e => exact .inl (h.pruned.kept horigin hentry)
  | none =>
    cases hentry' : s'.entry? l with
    | none => exact .inl rfl
    | some e =>
      rcases h.added hentry' with hold | hbelow | ⟨rfl, hpasses⟩
      · simp [hentry] at hold
      · exact absurd hbelow htarget
      · exact .inr ⟨rfl, rfl, hpasses.place hfree⟩

/-- What happens after a removal at the target happens there or at the origin. -/
theorem KeptOutside.of_takenOut {origin : Location} {t : Store}
    (htaken : s.TakenOut (directory ++ [name]) t) (hs' : s'.WellFormed)
    (h : t.KeptOutside origin (directory ++ [name]) p s') :
    s.KeptOutside origin (directory ++ [name]) p s' := by
  intro l horigin htarget
  have hsame : t.entry? l = s.entry? l := by rw [htaken.entry?, if_neg htarget]
  rcases h l horigin htarget with hkept | ⟨hnone, hdir, front, hfront, hplace⟩
  · exact .inl (hkept.trans hsame)
  · refine .inr ⟨hsame ▸ hnone, hdir, front, hfront, ?_⟩
    have hnames : "" ∉ l := fun hmem ↦ (hs'.isName_of_mem hdir hmem).ne_empty rfl
    rw [hplace] at hnames ⊢
    exact (htaken.retraces _).eq_of_names hnames

end Store

end DeferredOps
