import DeferredOps.Proofs.Store.Leaves

/-!
# An entry that nothing refers to

Two stores that differ by one entry lead every path to the same place whose way does not come to look
that entry up. A listing of the entry's directory asks about the entry too, but if it gets an answer, a name
that does not match drops out again.
-/

namespace DeferredOps

namespace Store

/-- One more entry stands in a store. -/
def Beside (s : Store) (l : Location) (entry : Entry) (s' : Store) : Prop :=
  ∃ front back, s.entries = front ++ back ∧ s' = { s with entries := front ++ (l, entry) :: back }

/-- Following names from a directory, over at most `links` symbolic links, comes to look up a location. -/
inductive Meets (s : Store) (l : Location) : ℕ → Location → List String → Prop
  | here {links directory name rest} (hname : LookedUp directory name)
      (h : directory ++ [name] = l) : Meets s l links directory (name :: rest)
  | dot {links directory rest} (h : Meets s l links directory rest) :
      Meets s l links directory ("." :: rest)
  | dotDot {links directory rest} (h : Meets s l links directory.dropLast rest) :
      Meets s l links directory (".." :: rest)
  | enter {links directory name rest} (hname : LookedUp directory name)
      (hentry : s.entry? (directory ++ [name]) = some .dir)
      (h : Meets s l links (directory ++ [name]) rest) : Meets s l links directory (name :: rest)
  | follow {links directory name rest text} (hname : LookedUp directory name)
      (hentry : s.entry? (directory ++ [name]) = some (.link text))
      (h : Meets s l links (linkStart text directory) (linkNames text ++ rest)) :
      Meets s l (links + 1) directory (name :: rest)

/-- A symbolic link whose names come to look up a location. -/
def Referred (s : Store) (l : Location) : Prop :=
  ∃ other text, s.entry? other = some (.link text) ∧
    s.Meets l linkLimit (linkStart text other.dropLast) (linkNames text)

variable {s s' : Store} {links : ℕ} {directory l location : Location} {name : String}
  {names front back : List String} {entry e : Entry} {p q : Path}

/-! ## One more entry -/

namespace Beside

theorem entry?_of_ne (h : s.Beside l entry s') (hne : location ≠ l) :
    s'.entry? location = s.entry? location := by
  obtain ⟨front, back, hentries, rfl⟩ := h
  by_cases hnil : location = []
  · rw [hnil, entry?_nil, entry?_nil]
  · have hbeq : (location == l) = false := by simpa using hne
    rw [entry?_of_ne_nil hnil, entry?_of_ne_nil hnil, hentries, List.lookup_append, List.lookup_append,
      List.lookup_cons, hbeq]

/-- Where the entry stands there was nothing before. -/
theorem free (h : s.Beside l entry s') (hs' : s'.WellFormed) (hl : l ≠ []) : s.entry? l = none := by
  obtain ⟨front, back, hentries, rfl⟩ := h
  have hnodup : ((front ++ (l, entry) :: back).map (·.1)).Nodup := hs'.nodup
  rw [List.map_append, List.map_cons, List.nodup_middle, List.nodup_cons] at hnodup
  rw [entry?_of_ne_nil hl, hentries, List.lookup_eq_none_iff]
  intro other hother
  rw [bne_iff_ne]
  intro heq
  refine hnodup.1 ?_
  rw [← List.map_append]
  exact List.mem_map.mpr ⟨other, hother, heq.symm⟩

theorem kept (h : s.Beside l entry s') (hs' : s'.WellFormed) (hl : l ≠ [])
    (hentry : s.entry? location = some e) : s'.entry? location = some e := by
  rw [h.entry?_of_ne, hentry]
  rintro rfl
  cases (h.free hs' hl).symm.trans hentry

theorem start (h : s.Beside l entry s') (p : Path) : s'.start p = s.start p := by
  obtain ⟨front, back, -, rfl⟩ := h
  rfl

theorem erase (h : s.Beside l entry s') (hne : location ≠ l) :
    (s.erase location).Beside l entry (s'.erase location) := by
  obtain ⟨front, back, hentries, rfl⟩ := h
  refine ⟨front.filter (fun e ↦ !decide (e.1 = location)), back.filter fun e ↦ !decide (e.1 = location),
    ?_, ?_⟩
  · change s.entries.filter _ = _
    rw [hentries, List.filter_append]
  · unfold Store.erase Store.discard
    simp [hne.symm]

theorem names_eq (h : s.Beside (directory ++ [name]) entry s') :
    ∃ before after, s.names directory = before ++ after ∧
      s'.names directory = before ++ name :: after := by
  obtain ⟨front, back, hentries, rfl⟩ := h
  refine ⟨front.filterMap fun e ↦ nameIn? directory e.1, back.filterMap fun e ↦ nameIn? directory e.1,
    ?_, ?_⟩
  · rw [Store.names, hentries, List.filterMap_append]
  · have hname : nameIn? directory (directory ++ [name]) = some name := nameIn?_eq_some.mpr rfl
    simp only [Store.names, List.filterMap_append, List.filterMap_cons, hname]

end Beside

/-! ## Ways -/

theorem Meets.mono {more : ℕ} (h : s.Meets l links directory names) (hmore : links ≤ more) :
    s.Meets l more directory names := by
  induction h generalizing more with
  | here hname heq => exact .here hname heq
  | dot _ ih => exact .dot (ih hmore)
  | dotDot _ ih => exact .dotDot (ih hmore)
  | enter hname hentry _ ih => exact .enter hname hentry (ih hmore)
  | follow hname hentry _ ih =>
    obtain ⟨more, rfl⟩ : ∃ k, more = k + 1 := ⟨more - 1, by omega⟩
    exact .follow hname hentry (ih (by omega))

namespace Meets

theorem of_dot {rest : List String} (h : s.Meets l links directory ("." :: rest)) :
    s.Meets l links directory rest := by
  generalize hnames : "." :: rest = names at h
  cases h with
  | here hname | enter hname | follow hname =>
    cases hnames
    exact absurd rfl hname.ne_dot
  | dot h =>
    cases hnames
    exact h
  | dotDot => simp at hnames

theorem of_dotDot {rest : List String} (h : s.Meets l links directory (".." :: rest)) :
    s.Meets l links directory.dropLast rest := by
  generalize hnames : ".." :: rest = names at h
  cases h with
  | here hname | enter hname | follow hname =>
    cases hnames
    exact absurd rfl hname.ne_dotDot
  | dotDot h =>
    cases hnames
    exact h
  | dot => simp at hnames

end Meets

/-- A way that has led to a directory meets what is not there only later. -/
theorem Leads.meets_append (hfree : s.entry? l = none)
    (h : s.Leads .followed links directory front (.found location .dir))
    (hmeets : s.Meets l links directory (front ++ back)) : ∃ k ≤ links, s.Meets l k location back := by
  generalize hlast : LastLink.followed = last at h
  generalize ht : Target.found location .dir = t at h
  induction h with
  | done =>
    cases ht
    exact ⟨_, Nat.le_refl _, hmeets⟩
  | dot _ ih => exact ih hmeets.of_dot hlast ht
  | dotDot _ ih => exact ih hmeets.of_dotDot hlast ht
  | absent => cases ht
  | enter hname hentry _ ih =>
    cases hmeets with
    | here _ heq => simp [heq, hfree] at hentry
    | dot => exact absurd rfl hname.ne_dot
    | dotDot => exact absurd rfl hname.ne_dotDot
    | enter _ _ h => exact ih h hlast ht
    | follow _ hother => cases hentry.symm.trans hother
  | file => cases ht
  | kept => cases ht
  | follow hname hentry _ _ _ ih =>
    cases hmeets with
    | here _ heq => simp [heq, hfree] at hentry
    | dot => exact absurd rfl hname.ne_dot
    | dotDot => exact absurd rfl hname.ne_dotDot
    | enter _ hother => cases hentry.symm.trans hother
    | follow _ hother h =>
      cases hentry.symm.trans hother
      obtain ⟨k, hk, hmeets⟩ := ih (by rwa [List.append_assoc]) hlast ht
      exact ⟨k, by omega, hmeets⟩

theorem walkNames_congr {follow follow' : LastLink → Location → List String → Except SystemError Target}
    (hsame : ∀ location, location ≠ l → s'.entry? location = s.entry? location)
    (hfollow : ∀ directory name rest text, LookedUp directory name →
      s.entry? (directory ++ [name]) = some (.link text) → ¬ s.Meets l links directory (name :: rest) →
        follow' .followed (linkStart text directory) (linkNames text ++ rest) =
          follow .followed (linkStart text directory) (linkNames text ++ rest))
    (hnot : ¬ s.Meets l links directory names) :
    s'.walkNames .followed follow' directory names = s.walkNames .followed follow directory names := by
  induction names generalizing directory with
  | nil => rfl
  | cons name rest ih =>
    unfold walkNames
    split
    · next hdot =>
      subst hdot
      exact ih fun h ↦ hnot (.dot h)
    next hdot =>
    split
    · next hdotDot =>
      subst hdotDot
      exact ih fun h ↦ hnot (.dotDot h)
    next hdotDot =>
    split
    · rfl
    next hremoved =>
    split
    · rfl
    next hlong =>
    have hname : LookedUp directory name := ⟨hdot, hdotDot, by simpa using hremoved, by omega⟩
    dsimp only
    rw [hsame _ fun heq ↦ hnot (.here hname heq)]
    rcases hentry : s.entry? (directory ++ [name]) with _ | _ | _ | text
    case some.dir => exact ih fun h ↦ hnot (.enter hname hentry h)
    case some.link => simpa using hfollow directory name rest text hname hentry hnot
    all_goals rfl

/-- Names are followed alike if they do not come to look up what makes the difference. -/
theorem walk_congr (hsame : ∀ location, location ≠ l → s'.entry? location = s.entry? location)
    (hnot : ¬ s.Meets l links directory names) :
    s'.walk .followed links directory names = s.walk .followed links directory names := by
  induction links generalizing directory names with
  | zero => exact walkNames_congr hsame (fun _ _ _ _ _ _ _ ↦ rfl) hnot
  | succ links ih =>
    exact walkNames_congr hsame
      (fun _ _ _ _ hname hentry hmeets ↦ ih fun h ↦ hmeets (.follow hname hentry h)) hnot

/-! ## Paths into the directory of the entry -/

section Paths

variable (hbeside : s.Beside l entry s') (hs' : s'.WellFormed) (hl : l ≠ [])
include hbeside hs' hl

theorem Beside.target (htarget : s.target .followed p = .ok (.found location e)) :
    s'.target .followed p = .ok (.found location e) := by
  rw [target_eq_ok_iff, hbeside.start] at *
  exact htarget.imp_right fun hleads ↦ hleads.of_subset_found fun _ _ ↦ hbeside.kept hs' hl

/-- A path into a directory is followed alike, unless its last name or a link comes to look up the
entry. -/
theorem Beside.target_spelledChild (hp : s.target .followed p = .ok (.found directory .dir))
    (hnot : ¬ s.Meets l linkLimit directory [name]) :
    s'.target .followed (p.spelledChild name) = s.target .followed (p.spelledChild name) := by
  have hfree := hbeside.free hs' hl
  obtain ⟨-, hway⟩ := target_eq_ok_iff.mp hp
  have hmeets : ¬ s.Meets l linkLimit (s.start (p.spelledChild name)) (p.spelledChild name).parts := by
    unfold Path.spelledChild
    split
    · next hempty =>
      have hparts : p.parts = [] := by simpa using (Bool.and_eq_true_iff.mp hempty).2
      rw [hparts] at hway
      cases hway
      exact fun h ↦ hnot h.of_dot
    · intro h
      obtain ⟨k, hk, hlast⟩ := hway.meets_append hfree h
      exact hnot (hlast.mono hk)
  have hwalk : s'.walk .followed linkLimit (s.start (p.spelledChild name)) (p.spelledChild name).parts =
      s.walk .followed linkLimit (s.start (p.spelledChild name)) (p.spelledChild name).parts :=
    walk_congr (fun _ ↦ hbeside.entry?_of_ne) hmeets
  unfold Store.target startChecked
  rw [hbeside.start]
  simp only [bind, Except.bind]
  split
  · rfl
  · next start hchecked =>
    split at hchecked
    · cases hchecked
    · obtain rfl := Except.ok.inj hchecked
      rw [hwalk]

/-- A path that is taken apart after a directory has the same last name in the same place. -/
theorem Beside.slot_child (hp : s.target .followed p = .ok (.found directory .dir)) :
    s'.slot (p.child name) = s.slot (p.child name) := by
  have hway := (target_eq_ok_iff.mp hp).2.walk
  have hway' := (target_eq_ok_iff.mp (hbeside.target hs' hl hp)).2.walk
  have hfront : (p.child name).parts.dropLast = p.parts := by simp [Path.child]
  have hstart : s.start (p.child name) = s.start p := rfl
  have hstart' : s'.start (p.child name) = s'.start p := rfl
  unfold slot startChecked
  rw [hfront, hstart, hstart', hbeside.start p]
  rw [hbeside.start p] at hway'
  simp only [bind, Except.bind]
  split
  · rfl
  · next start hchecked =>
    split at hchecked
    · cases hchecked
    · obtain rfl := Except.ok.inj hchecked
      rw [hway, hway']

end Paths

/-! ## Listings -/

theorem filterAuxM_congr {α : Type} {test test' : α → Except Failure Bool} {keep : α → Bool}
    {elements done done' : List α} (htest : ∀ a ∈ elements, test' a = test a)
    (hdone : done'.filter keep = done.filter keep) :
    (elements.filterAuxM test' done').map (·.filter keep) =
      (elements.filterAuxM test done).map (·.filter keep) := by
  induction elements generalizing done done' with
  | nil => exact congrArg Except.ok hdone
  | cons a rest ih =>
    unfold List.filterAuxM
    simp only [bind, Except.bind, htest a List.mem_cons_self]
    cases test a with
    | error f => rfl
    | ok b =>
      refine ih (fun c hc ↦ htest c (List.mem_cons_of_mem _ hc)) ?_
      cases b
      · exact hdone
      · simp only [cond_true, List.filter_cons, hdone]

/-- One more element that a second filter drops makes no difference, if the first test has an answer for
it. -/
theorem filterM_insert {α : Type} {test test' : α → Except Failure Bool} {keep : α → Bool}
    {front back : List α} {a : α} {b : Bool} (htest : ∀ c ∈ front ++ back, test' c = test c)
    (ha : test' a = .ok b) (hdropped : keep a = false) :
    ((front ++ a :: back).filterM test').map (·.filter keep) =
      ((front ++ back).filterM test).map (·.filter keep) := by
  have haux (done : List α) : ((front ++ a :: back).filterAuxM test' done).map (·.filter keep) =
      ((front ++ back).filterAuxM test done).map (·.filter keep) := by
    induction front generalizing done with
    | nil =>
      rw [List.nil_append, List.nil_append, List.filterAuxM]
      simp only [bind, Except.bind, ha]
      refine filterAuxM_congr (by simpa using htest) ?_
      cases b
      · rfl
      · simp [hdropped]
    | cons c front ih =>
      rw [List.cons_append, List.cons_append, List.filterAuxM, List.filterAuxM]
      simp only [bind, Except.bind, htest c (by simp)]
      cases test c with
      | error f => rfl
      | ok b' => exact ih (fun d hd ↦ htest d (List.mem_cons_of_mem _ hd)) _
  have hreverse (answer : Except Failure (List α)) :
      (answer >>= fun kept ↦ pure kept.reverse : Except Failure (List α)).map (·.filter keep) =
        (answer.map (·.filter keep)).map List.reverse := by
    cases answer with
    | error f => rfl
    | ok kept => exact congrArg Except.ok List.filter_reverse
  unfold List.filterM
  rw [hreverse, hreverse, haux]

/-- Every other name of the directory is answered for in the same way. -/
theorem Beside.isFileName_eq (hbeside : s.Beside (directory ++ [name]) entry s') (hs' : s'.WellFormed)
    (hs : s.WellFormed) (hp : s.target .followed p = .ok (.found directory .dir))
    (halone : ¬ s.Referred (directory ++ [name])) {other : String} (hother : other ≠ name) :
    s'.isFileName p directory other = s.isFileName p directory other := by
  have hlocation : directory ++ [other] ≠ directory ++ [name] := by simpa using hother
  unfold isFileName
  rw [hbeside.entry?_of_ne hlocation]
  rcases hentry : s.entry? (directory ++ [other]) with _ | _ | _ | text
  case some.link =>
    dsimp only
    rw [hbeside.target_spelledChild hs' (by simp) hp fun hmeets ↦ ?_]
    have hnot := hs.name hentry
    cases hmeets with
    | here _ heq => exact hlocation heq
    | dot => exact hnot.ne_dot rfl
    | dotDot => exact hnot.ne_dotDot rfl
    | enter _ hdir => cases hentry.symm.trans hdir
    | follow _ hlink h =>
      cases hentry.symm.trans hlink
      refine halone ⟨_, _, hentry, ?_⟩
      rw [List.dropLast_concat]
      exact (List.append_nil (linkNames _) ▸ h).mono (Nat.le_succ _)
  all_goals rfl

/-- A directory's files that match are the same beside a name that does not match and is answered for. -/
theorem Beside.matchingNames_eq (hbeside : s.Beside (directory ++ [name]) entry s')
    (hs' : s'.WellFormed) (hs : s.WellFormed) (hlisted : s.listed p = .ok directory)
    (halone : ¬ s.Referred (directory ++ [name])) {b : Bool}
    (hanswer : s'.isFileName p directory name = .ok b) {expression : String}
    (hname : NamePattern.matchesName expression name = false) :
    s'.matchingNames p expression = s.matchingNames p expression := by
  obtain ⟨hnul, hp⟩ := listed_eq_ok_iff.mp hlisted
  have hlisted' : s'.listed p = .ok directory :=
    listed_eq_ok_iff.mpr ⟨hnul, hbeside.target hs' (by simp) hp⟩
  obtain ⟨before, after, hnames, hnames'⟩ := hbeside.names_eq
  have hfresh : name ∉ before ++ after := by
    have hnodup := nodup_names hs' directory
    rw [hnames', List.nodup_middle, List.nodup_cons] at hnodup
    exact hnodup.1
  have hothers (other : String) (hother : other ∈ before ++ after) :
      s'.isFileName p directory other = s.isFileName p directory other :=
    hbeside.isFileName_eq hs' hs hp halone fun heq ↦ hfresh (heq ▸ hother)
  have hkept := filterM_insert hothers hanswer hname
  have hsorted (test : String → Except Failure Bool) (names : List String) :
      (names.filterM test >>= fun files ↦
        pure (sortNames (files.filter (NamePattern.matchesName expression))) :
          Except Failure (List String)) =
        ((names.filterM test).map (·.filter (NamePattern.matchesName expression))).map sortNames := by
    cases names.filterM test <;> rfl
  unfold matchingNames
  rw [hlisted, hlisted']
  change ((s'.names directory).filterM (s'.isFileName p directory) >>= fun files ↦
      pure (sortNames (files.filter (NamePattern.matchesName expression))) :
        Except Failure (List String)) =
    ((s.names directory).filterM (s.isFileName p directory) >>= fun files ↦
      pure (sortNames (files.filter (NamePattern.matchesName expression))))
  rw [hsorted, hsorted, hnames, hnames', hkept]

end Store

end DeferredOps
