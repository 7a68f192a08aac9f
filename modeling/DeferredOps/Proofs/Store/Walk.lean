import DeferredOps.Proofs.Store.WellFormed

/-!
# Where paths lead

`Leads` is the relation between a place, the names that are followed from it and what they lead to,
with one rule for each kind of name. It holds exactly when following the names succeeds, so facts
about paths that lead somewhere are proved by induction on it.
-/

namespace DeferredOps

/-- A name as it stands in a path. -/
structure IsPart (name : String) : Prop where
  ne_empty : name ≠ ""
  noSlash : '/' ∉ name.toList

theorem IsName.isPart {name : String} (h : IsName name) : IsPart name :=
  ⟨h.ne_empty, h.noSlash⟩

/-- A path whose names could have been read from a text. -/
def Path.Proper (p : Path) : Prop :=
  ∀ name ∈ p.parts, IsPart name

namespace Store

/-- A name that is looked up in a directory. -/
structure LookedUp (directory : Location) (name : String) : Prop where
  ne_dot : name ≠ "."
  ne_dotDot : name ≠ ".."
  there : isRemoved directory = false
  short : name.utf8ByteSize ≤ nameLimit

/-- The names lead from the directory to the target, over at most `links` symbolic links. -/
inductive Leads (s : Store) : LastLink → ℕ → Location → List String → Target → Prop
  | done {last links directory} : Leads s last links directory [] (.found directory .dir)
  | dot {last links directory rest t} (h : Leads s last links directory rest t) :
      Leads s last links directory ("." :: rest) t
  | dotDot {last links directory rest t} (h : Leads s last links directory.dropLast rest t) :
      Leads s last links directory (".." :: rest) t
  | absent {last links directory name} (hname : LookedUp directory name)
      (hentry : s.entry? (directory ++ [name]) = none) :
      Leads s last links directory [name] (.absent directory name)
  | enter {last links directory name rest t} (hname : LookedUp directory name)
      (hentry : s.entry? (directory ++ [name]) = some .dir)
      (h : Leads s last links (directory ++ [name]) rest t) :
      Leads s last links directory (name :: rest) t
  | file {last links directory name id content} (hname : LookedUp directory name)
      (hentry : s.entry? (directory ++ [name]) = some (.file id content)) :
      Leads s last links directory [name] (.found (directory ++ [name]) (.file id content))
  | kept {links directory name text} (hname : LookedUp directory name)
      (hentry : s.entry? (directory ++ [name]) = some (.link text)) :
      Leads s .kept links directory [name] (.found (directory ++ [name]) (.link text))
  | follow {last links directory name rest text t} (hname : LookedUp directory name)
      (hentry : s.entry? (directory ++ [name]) = some (.link text))
      (hkept : rest ≠ [] ∨ last ≠ .kept)
      (hwritten : rest ≠ [] ∨ last ≠ .written ∨ endsInSlash text = false)
      (h : Leads s last links (linkStart text directory) (linkNames text ++ rest) t) :
      Leads s last (links + 1) directory (name :: rest) t

variable {s s' : Store} {last : LastLink} {links : ℕ} {directory location : Location}
  {name : String} {names rest : List String} {t : Target} {entry : Entry}

/-- Names lead on as they are followed, if what they lead to over a symbolic link is right. -/
theorem Leads.of_walkNames {follow : LastLink → Location → List String → Except SystemError Target}
    (hfollow : ∀ last directory names t, follow last directory names = .ok t →
      ∃ k, links = k + 1 ∧ s.Leads last k directory names t)
    (h : s.walkNames last follow directory names = .ok t) :
    s.Leads last links directory names t := by
  fun_induction walkNames s last follow directory names with
  | case1 =>
    cases h
    exact .done
  | case2 directory rest ih => exact .dot (ih h)
  | case3 directory rest _ ih => exact .dotDot (ih h)
  | case4 => cases h
  | case5 => cases h
  | case6 directory name rest hdot hdotDot hthere hshort location hentry hrest =>
    cases h
    obtain rfl : rest = [] := by simpa using hrest
    exact .absent ⟨hdot, hdotDot, by simpa using hthere, by omega⟩ hentry
  | case7 => cases h
  | case8 directory name rest hdot hdotDot hthere hshort location hentry ih =>
    exact .enter ⟨hdot, hdotDot, by simpa using hthere, by omega⟩ hentry (ih h)
  | case9 directory name rest hdot hdotDot hthere hshort location id content hentry hrest =>
    cases h
    obtain rfl : rest = [] := by simpa using hrest
    exact .file ⟨hdot, hdotDot, by simpa using hthere, by omega⟩ hentry
  | case10 => cases h
  | case11 directory name rest hdot hdotDot hthere hshort location text hentry hlast =>
    cases h
    obtain ⟨rfl, rfl⟩ : rest = [] ∧ last = .kept := by simpa using hlast
    exact .kept ⟨hdot, hdotDot, by simpa using hthere, by omega⟩ hentry
  | case12 directory name rest _ _ _ _ _ _ _ _ start _ parent =>
    cases hdirectory : parent.directory <;> simp [hdirectory, Except.bind] at h
  | case13 => cases h
  | case14 directory name rest hdot hdotDot hthere hshort location text hentry hlast start
      hwritten =>
    obtain ⟨k, rfl, hrest⟩ := hfollow _ _ _ _ h
    refine .follow ⟨hdot, hdotDot, by simpa using hthere, by omega⟩ hentry ?_ ?_ hrest
    · simpa [Classical.or_iff_not_imp_left] using hlast
    · simpa [Classical.or_iff_not_imp_left] using hwritten

theorem Leads.of_walk (h : s.walk last links directory names = .ok t) :
    s.Leads last links directory names t := by
  induction links generalizing last directory names t with
  | zero => exact .of_walkNames (fun _ _ _ _ h ↦ by cases h) h
  | succ links ih => exact .of_walkNames (fun _ _ _ _ h ↦ ⟨links, rfl, ih h⟩) h

@[simp]
theorem walk_nil : s.walk last links directory [] = .ok (.found directory .dir) := by
  cases links <;> rfl

theorem walk_dot : s.walk last links directory ("." :: rest) = s.walk last links directory rest := by
  cases links <;> rw [walk, walkNames, if_pos rfl]

theorem walk_dotDot :
    s.walk last links directory (".." :: rest) = s.walk last links directory.dropLast rest := by
  cases links <;> rw [walk, walkNames, if_neg (by decide), if_pos rfl]

theorem LookedUp.walk_cons (hname : LookedUp directory name) :
    s.walk last links directory (name :: rest) =
      match s.entry? (directory ++ [name]) with
      | none => if rest.isEmpty then .ok (.absent directory name) else .error .noEntry
      | some .dir => s.walk last links (directory ++ [name]) rest
      | some (.file id content) =>
        if rest.isEmpty then .ok (.found (directory ++ [name]) (.file id content))
        else .error .notDirectory
      | some (.link target) =>
        if rest.isEmpty && last = .kept then .ok (.found (directory ++ [name]) (.link target))
        else
          match links with
          | 0 => .error .tooManyLinks
          | links + 1 =>
            let start := linkStart target directory
            if rest.isEmpty && last = .written && endsInSlash target then
              match s.walk .followed links start (textNames target).dropLast with
              | .ok parent => parent.directory.bind fun _ ↦ .error .isDirectory
              | .error e => .error e
            else s.walk last links start (linkNames target ++ rest) := by
  have hshort : ¬ nameLimit < name.utf8ByteSize := by
    have := hname.short
    omega
  cases links with
  | zero =>
    rw [walk, walkNames, if_neg hname.ne_dot, if_neg hname.ne_dotDot, if_neg (by simp [hname.there]),
      if_neg hshort]
    dsimp only
    rcases s.entry? (directory ++ [name]) with _ | _ | _ | _ <;> simp
  | succ links =>
    rcases hentry : s.entry? (directory ++ [name]) with _ | _ | _ | target
    case some.link =>
      cases hparent : s.walk .followed links (linkStart target directory)
          (textNames target).dropLast <;>
        simp [walk, walkNames, hname.ne_dot, hname.ne_dotDot, hname.there, hshort, hentry, hparent]
    all_goals
      simp [walk, walkNames, hname.ne_dot, hname.ne_dotDot, hname.there, hshort, hentry]

theorem Leads.walk (h : s.Leads last links directory names t) :
    s.walk last links directory names = .ok t := by
  induction h with
  | done => exact walk_nil
  | dot _ ih => rw [walk_dot, ih]
  | dotDot _ ih => rw [walk_dotDot, ih]
  | absent hname hentry => simp [hname.walk_cons, hentry]
  | enter hname hentry _ ih => simp [hname.walk_cons, hentry, ih]
  | file hname hentry => simp [hname.walk_cons, hentry]
  | kept hname hentry => simp [hname.walk_cons, hentry]
  | follow hname hentry hkept hwritten _ ih =>
    rw [hname.walk_cons, hentry]
    simp only
    rw [if_neg, if_neg, ih]
    · simpa [Classical.or_iff_not_imp_left] using hwritten
    · simpa [Classical.or_iff_not_imp_left] using hkept

theorem walk_eq_ok_iff :
    s.walk last links directory names = .ok t ↔ s.Leads last links directory names t :=
  ⟨Leads.of_walk, Leads.walk⟩

namespace Leads

theorem unique {t' : Target} (h : s.Leads last links directory names t)
    (h' : s.Leads last links directory names t') : t = t' :=
  Except.ok.inj (h.walk.symm.trans h'.walk)

theorem mono {more : ℕ} (h : s.Leads last links directory names t) (hmore : links ≤ more) :
    s.Leads last more directory names t := by
  induction h generalizing more with
  | done => exact .done
  | dot _ ih => exact .dot (ih hmore)
  | dotDot _ ih => exact .dotDot (ih hmore)
  | absent hname hentry => exact .absent hname hentry
  | enter hname hentry _ ih => exact .enter hname hentry (ih hmore)
  | file hname hentry => exact .file hname hentry
  | kept hname hentry => exact .kept hname hentry
  | follow hname hentry hkept hwritten _ ih =>
    obtain ⟨more, rfl⟩ : ∃ k, more = k + 1 := ⟨more - 1, by omega⟩
    exact .follow hname hentry hkept hwritten (ih (by omega))

/-- Names that lead somewhere lead there over a directory before the last of them. -/
theorem split {front back : List String} (h : s.Leads last links directory (front ++ back) t)
    (hback : back ≠ []) :
    ∃ middle k, k ≤ links ∧ s.Leads .followed links directory front (.found middle .dir) ∧
      s.Leads last k middle back t := by
  generalize hnames : front ++ back = names at h
  induction h generalizing front with
  | done => simp_all
  | dot h ih =>
    rcases front with _ | ⟨n, front⟩
    · exact ⟨_, _, Nat.le_refl _, .done, by simpa [← hnames] using Leads.dot h⟩
    · obtain ⟨rfl, rfl⟩ : n = "." ∧ front ++ back = _ := by simpa using hnames
      obtain ⟨middle, k, hk, hfront, hrest⟩ := ih rfl
      exact ⟨middle, k, hk, .dot hfront, hrest⟩
  | dotDot h ih =>
    rcases front with _ | ⟨n, front⟩
    · exact ⟨_, _, Nat.le_refl _, .done, by simpa [← hnames] using Leads.dotDot h⟩
    · obtain ⟨rfl, rfl⟩ : n = ".." ∧ front ++ back = _ := by simpa using hnames
      obtain ⟨middle, k, hk, hfront, hrest⟩ := ih rfl
      exact ⟨middle, k, hk, .dotDot hfront, hrest⟩
  | absent hname hentry =>
    obtain ⟨rfl, rfl⟩ : front = [] ∧ back = _ := by simpa [hback, List.append_eq_singleton_iff] using hnames
    exact ⟨_, _, Nat.le_refl _, .done, .absent hname hentry⟩
  | enter hname hentry h ih =>
    rcases front with _ | ⟨n, front⟩
    · exact ⟨_, _, Nat.le_refl _, .done, by simpa [← hnames] using Leads.enter hname hentry h⟩
    · obtain ⟨rfl, rfl⟩ : n = _ ∧ front ++ back = _ := by simpa using hnames
      obtain ⟨middle, k, hk, hfront, hrest⟩ := ih rfl
      exact ⟨middle, k, hk, .enter hname hentry hfront, hrest⟩
  | file hname hentry =>
    obtain ⟨rfl, rfl⟩ : front = [] ∧ back = _ := by simpa [hback, List.append_eq_singleton_iff] using hnames
    exact ⟨_, _, Nat.le_refl _, .done, .file hname hentry⟩
  | kept hname hentry =>
    obtain ⟨rfl, rfl⟩ : front = [] ∧ back = _ := by simpa [hback, List.append_eq_singleton_iff] using hnames
    exact ⟨_, _, Nat.le_refl _, .done, .kept hname hentry⟩
  | follow hname hentry hkept hwritten h ih =>
    rcases front with _ | ⟨n, front⟩
    · exact ⟨_, _, Nat.le_refl _, .done, by simpa [← hnames] using Leads.follow hname hentry hkept hwritten h⟩
    · obtain ⟨rfl, rfl⟩ : n = _ ∧ front ++ back = _ := by simpa using hnames
      obtain ⟨middle, k, hk, hfront, hrest⟩ := ih (List.append_assoc ..)
      exact ⟨middle, k, by omega, .follow hname hentry (by simp) (by simp) hfront, hrest⟩

/-- After names that lead to a directory, more names can be followed from there. -/
theorem join {front back : List String} {middle : Location}
    (h : s.Leads .followed links directory front (.found middle .dir))
    (hrest : s.Leads last 0 middle back t) (hback : back ≠ []) :
    s.Leads last links directory (front ++ back) t := by
  generalize hlast : LastLink.followed = mode at h
  generalize hfound : Target.found middle .dir = found at h
  induction h with
  | done =>
    cases hfound
    exact hrest.mono (Nat.zero_le _)
  | dot _ ih => exact .dot (ih hlast hfound)
  | dotDot _ ih => exact .dotDot (ih hlast hfound)
  | absent => cases hfound
  | enter hname hentry _ ih => exact .enter hname hentry (ih hlast hfound)
  | file => cases hfound
  | kept => cases hlast
  | follow hname hentry _ _ _ ih =>
    refine .follow hname hentry (by simp [hback]) (by simp [hback]) ?_
    simpa using ih hlast hfound

/-- What leads somewhere still does so where everything is there that was there before. -/
theorem of_subset (h : s.Leads last links directory names t)
    (hsub : ∀ l e, s.entry? l = some e → s'.entry? l = some e)
    (habsent : ∀ d n, t = .absent d n → s'.entry? (d ++ [n]) = none) :
    s'.Leads last links directory names t := by
  induction h with
  | done => exact .done
  | dot _ ih => exact .dot (ih habsent)
  | dotDot _ ih => exact .dotDot (ih habsent)
  | absent hname _ => exact .absent hname (habsent _ _ rfl)
  | enter hname hentry _ ih => exact .enter hname (hsub _ _ hentry) (ih habsent)
  | file hname hentry => exact .file hname (hsub _ _ hentry)
  | kept hname hentry => exact .kept hname (hsub _ _ hentry)
  | follow hname hentry hkept hwritten _ ih =>
    exact .follow hname (hsub _ _ hentry) hkept hwritten (ih habsent)

theorem of_subset_found (h : s.Leads last links directory names (.found location entry))
    (hsub : ∀ l e, s.entry? l = some e → s'.entry? l = some e) :
    s'.Leads last links directory names (.found location entry) :=
  h.of_subset hsub (by simp)

end Leads

/-! ## What is found -/

theorem standing_linkStart (hs : s.Standing directory) (text : String) :
    s.Standing (linkStart text directory) := by
  unfold linkStart
  split
  · exact standing_nil s
  · exact hs

/-- A target that is as the store says. -/
def Sound (s : Store) : Target → Prop
  | .found location entry =>
    s.entry? location = some entry ∨ entry = .dir ∧ isRemoved location ∧ s.Standing location
  | .absent directory name =>
    s.entry? directory = some .dir ∧ LookedUp directory name ∧ s.entry? (directory ++ [name]) = none

theorem Leads.sound (hs : s.WellFormed) (hdirectory : s.Standing directory)
    (h : s.Leads last links directory names t) : s.Sound t := by
  induction h with
  | done =>
    refine (hdirectory _ (List.prefix_refl _)).elim (fun hremoved ↦ .inr ?_) .inl
    exact ⟨rfl, hremoved, hdirectory⟩
  | dot _ ih => exact ih hdirectory
  | dotDot _ ih => exact ih hdirectory.dropLast
  | absent hname hentry => exact ⟨hdirectory.entry? hname.there, hname, hentry⟩
  | enter _ hentry _ ih => exact ih (hs.standing_of_dir hentry)
  | file _ hentry => exact .inl hentry
  | kept _ hentry => exact .inl hentry
  | follow _ _ _ _ _ ih => exact ih (standing_linkStart hdirectory _)

/-- From a directory that is there, names lead to what is there. -/
theorem Leads.found_there (hs : s.WellFormed) (hdirectory : s.entry? directory = some .dir)
    (h : s.Leads last links directory names (.found location entry)) :
    s.entry? location = some entry := by
  generalize ht : Target.found location entry = t at h
  induction h with
  | done =>
    cases ht
    exact hdirectory
  | dot _ ih => exact ih hdirectory ht
  | dotDot _ ih => exact ih (hs.dir_of_prefix hdirectory (List.dropLast_prefix _)) ht
  | absent => cases ht
  | enter _ hentry _ ih => exact ih hentry ht
  | file _ hentry =>
    cases ht
    exact hentry
  | kept _ hentry =>
    cases ht
    exact hentry
  | follow _ _ _ _ _ ih =>
    refine ih ?_ ht
    unfold linkStart
    split
    · rfl
    · exact hdirectory

/-- In a directory that has been removed names lead only up, and they do so in every store. -/
theorem Leads.of_removed (hs : s.WellFormed) (hdirectory : s.Standing directory)
    (hnone : s.entry? location = none)
    (h : s.Leads last links directory names (.found location entry)) :
    location <+: directory ∧
      ∀ s' mode more, Leads s' mode more directory names (.found location .dir) := by
  have hthere {d : Location} {names : List String} {last : LastLink} {links : ℕ} {name : String}
      {t : Target} (hd : s.Standing d) (hname : LookedUp d name) (h : s.Leads last links d names t) :
      Target.found location entry ≠ t := by
    rintro rfl
    simp [h.found_there hs (hd.entry? hname.there)] at hnone
  generalize ht : Target.found location entry = t at h
  induction h with
  | done =>
    cases ht
    exact ⟨List.prefix_refl _, fun _ _ _ ↦ .done⟩
  | dot _ ih =>
    obtain ⟨hpre, hleads⟩ := ih hdirectory ht
    exact ⟨hpre, fun s' mode more ↦ .dot (hleads s' mode more)⟩
  | dotDot _ ih =>
    obtain ⟨hpre, hleads⟩ := ih hdirectory.dropLast ht
    exact ⟨hpre.trans (List.dropLast_prefix _), fun s' mode more ↦ .dotDot (hleads s' mode more)⟩
  | absent => cases ht
  | enter hname hentry h => exact absurd ht (hthere hdirectory hname (.enter hname hentry h))
  | file _ hentry =>
    cases ht
    simp [hnone] at hentry
  | kept _ hentry =>
    cases ht
    simp [hnone] at hentry
  | follow hname hentry hkept hwritten h =>
    exact absurd ht (hthere hdirectory hname (.follow hname hentry hkept hwritten h))

/-- Symbolic links at the end matter only to who follows them. -/
theorem Leads.last_irrelevant {mode : LastLink} (h : s.Leads .kept links directory names t)
    (hlink : ∀ l text, t ≠ .found l (.link text)) :
    s.Leads mode links directory names t := by
  generalize hlast : LastLink.kept = last at h
  induction h with
  | done => exact .done
  | dot _ ih => exact .dot (ih hlink hlast)
  | dotDot _ ih => exact .dotDot (ih hlink hlast)
  | absent hname hentry => exact .absent hname hentry
  | enter hname hentry _ ih => exact .enter hname hentry (ih hlink hlast)
  | file hname hentry => exact .file hname hentry
  | kept => exact absurd rfl (hlink _ _)
  | follow hname hentry hkept _ _ ih =>
    subst hlast
    have hrest := hkept.resolve_right (by simp)
    exact .follow hname hentry (.inl hrest) (.inl hrest) (ih hlink rfl)

/-! ## Paths -/

theorem standing_start (hs : s.WellFormed) (p : Path) : s.Standing (s.start p) := by
  unfold start
  split
  · exact standing_nil s
  · exact hs.current

theorem target_eq_ok_iff {p : Path} :
    s.target last p = .ok t ↔
      p.text.utf8ByteSize < pathLimit ∧ s.Leads last linkLimit (s.start p) p.parts t := by
  unfold target startChecked
  split
  · next hlong =>
    constructor
    · intro h
      cases h
    · intro h
      omega
  · next hlong =>
    change s.walk last linkLimit (s.start p) p.parts = _ ↔ _
    rw [walk_eq_ok_iff]
    exact ⟨fun h ↦ ⟨by omega, h⟩, fun h ↦ h.2⟩

theorem sound_of_target (hs : s.WellFormed) {p : Path} (h : s.target last p = .ok t) : s.Sound t :=
  (target_eq_ok_iff.mp h).2.sound hs (standing_start hs p)

theorem directory_eq_ok_iff : t.directory = .ok location ↔ t = .found location .dir := by
  rcases t with ⟨found, _ | _ | _⟩ | _ <;> simp [Target.directory]

theorem slot_eq_name_iff {p : Path} :
    s.slot p = .ok (.name directory name) ↔
      p.text.utf8ByteSize < pathLimit ∧ ∃ front, p.parts = front ++ [name] ∧
        s.Leads .followed linkLimit (s.start p) front (.found directory .dir) ∧
          LookedUp directory name := by
  unfold slot startChecked
  simp only [bind, Except.bind]
  constructor
  · intro h
    split at h
    · next hlong => split at hlong <;> cases h
    next start hstart =>
    split at hstart
    · cases hstart
    next hshort =>
    obtain rfl := Except.ok.inj hstart
    split at h
    · cases h
    next parent hwalk =>
    split at h
    · cases h
    next found hfound =>
    obtain rfl := directory_eq_ok_iff.mp hfound
    refine ⟨by omega, p.parts.dropLast, ?_⟩
    split at h
    · split at h <;> cases h
    next last hlast =>
    split at h
    · cases h
    next hdot =>
    split at h
    · cases h
    next hdotDot =>
    split at h
    · cases h
    next hthere =>
    split at h
    · cases h
    next hname =>
    cases h
    refine ⟨(List.dropLast_append_getLast? _ hlast).symm, Leads.of_walk hwalk, ?_⟩
    exact ⟨hdot, hdotDot, by simpa using hthere, by omega⟩
  · rintro ⟨hshort, front, hparts, hfront, hname⟩
    have hlong : ¬ pathLimit ≤ p.text.utf8ByteSize := by omega
    have hlimit : ¬ nameLimit < name.utf8ByteSize := by
      have := hname.short
      omega
    simp [hlong, hparts, hfront.walk, Target.directory, hname.ne_dot, hname.ne_dotDot, hname.there,
      hlimit]
    rfl

/-- What a path leads to without following a link at its end stands under its last name. -/
theorem target_kept_of_slot {p : Path} (h : s.slot p = .ok (.name directory name)) :
    s.target .kept p = .ok (match s.entry? (directory ++ [name]) with
      | none => .absent directory name
      | some entry => .found (directory ++ [name]) entry) := by
  obtain ⟨hshort, front, hparts, hfront, hname⟩ := slot_eq_name_iff.mp h
  rw [target_eq_ok_iff, hparts]
  refine ⟨hshort, hfront.join ?_ (by simp)⟩
  cases hentry : s.entry? (directory ++ [name]) with
  | none => exact .absent hname hentry
  | some entry =>
    cases entry with
    | dir => exact .enter hname hentry .done
    | file => exact .file hname hentry
    | link => exact .kept hname hentry

/-- What stands under the last name is what a path leads to, if it is no symbolic link. -/
theorem target_of_slot {p : Path} {mode : LastLink} (h : s.slot p = .ok (.name directory name))
    (hentry : s.entry? (directory ++ [name]) = some entry) (hlink : entry.isLink = false) :
    s.target mode p = .ok (.found (directory ++ [name]) entry) := by
  have hkept := target_kept_of_slot h
  rw [hentry] at hkept
  obtain ⟨hshort, hleads⟩ := target_eq_ok_iff.mp hkept
  refine target_eq_ok_iff.mpr ⟨hshort, hleads.last_irrelevant fun l text heq ↦ ?_⟩
  obtain ⟨-, rfl⟩ := Target.found.inj heq
  cases hlink

/-- A free last name is what a path leads to. -/
theorem target_of_free {p : Path} {mode : LastLink} (h : s.slot p = .ok (.name directory name))
    (hfree : s.entry? (directory ++ [name]) = none) :
    s.target mode p = .ok (.absent directory name) := by
  have hkept := target_kept_of_slot h
  rw [hfree] at hkept
  exact target_eq_ok_iff.mpr
    ((target_eq_ok_iff.mp hkept).imp_right (Leads.last_irrelevant · (by simp)))

/-- A path that leads to something other than a directory has a last name. -/
theorem slot_of_target {p : Path} (h : s.target last p = .ok t) (ht : ∀ l, t ≠ .found l .dir) :
    ∃ d n, s.slot p = .ok (.name d n) ∧ s.entry? (d ++ [n]) ≠ some .dir ∧
      (s.entry? (d ++ [n]) = none → t = .absent d n) := by
  obtain ⟨hshort, hleads⟩ := target_eq_ok_iff.mp h
  rcases List.eq_nil_or_concat p.parts with hnil | ⟨front, n, hparts⟩
  · rw [hnil] at hleads
    cases hleads
    exact absurd rfl (ht _)
  rw [hparts, List.concat_eq_append] at hleads
  obtain ⟨middle, k, -, hfront, hlast⟩ := hleads.split (by simp)
  suffices hname : LookedUp middle n ∧ s.entry? (middle ++ [n]) ≠ some .dir ∧
      (s.entry? (middle ++ [n]) = none → t = .absent middle n) from
    ⟨middle, n, slot_eq_name_iff.mpr ⟨hshort, front, by simp [hparts], hfront, hname.1⟩, hname.2⟩
  cases hlast with
  | dot h =>
    cases h
    exact absurd rfl (ht _)
  | dotDot h =>
    cases h
    exact absurd rfl (ht _)
  | absent hname hentry => exact ⟨hname, by simp [hentry], fun _ ↦ rfl⟩
  | enter _ _ h =>
    cases h
    exact absurd rfl (ht _)
  | file hname hentry => exact ⟨hname, by simp [hentry]⟩
  | kept hname hentry => exact ⟨hname, by simp [hentry]⟩
  | follow hname hentry => exact ⟨hname, by simp [hentry]⟩

/-! ## Free names -/

theorem mem_splitOn {separator : Char} {text piece : List Char}
    (h : piece ∈ Text.splitOn separator text) :
    separator ∉ piece ∧ ∀ c ∈ piece, c ∈ text := by
  induction text generalizing piece with
  | nil =>
    obtain rfl : piece = [] := by simpa [Text.splitOn] using h
    simp
  | cons c rest ih =>
    unfold Text.splitOn at h
    split at h
    · rcases List.mem_cons.mp h with rfl | hrest
      · simp
      · exact ⟨(ih hrest).1, fun d hd ↦ List.mem_cons_of_mem _ ((ih hrest).2 d hd)⟩
    · next hc =>
      split at h
      · obtain rfl : piece = [c] := by simpa using h
        simp [Ne.symm hc]
      · next first pieces hsplit =>
        rw [hsplit] at ih
        rcases List.mem_cons.mp h with rfl | hrest
        · obtain ⟨hseparator, hmem⟩ := ih List.mem_cons_self
          refine ⟨by simp [Ne.symm hc, hseparator], fun d hd ↦ ?_⟩
          rcases List.mem_cons.mp hd with rfl | hd
          · exact List.mem_cons_self
          · exact List.mem_cons_of_mem _ (hmem d hd)
        · obtain ⟨hseparator, hmem⟩ := ih (List.mem_cons_of_mem _ hrest)
          exact ⟨hseparator, fun d hd ↦ List.mem_cons_of_mem _ (hmem d hd)⟩

theorem isPart_of_mem_splitOn {text piece : List Char} (h : piece ∈ Text.splitOn '/' text)
    (hne : piece ≠ []) : IsPart (String.ofList piece) :=
  ⟨by simpa using hne, by simpa using (mem_splitOn h).1⟩

end Store

theorem Path.proper_ofString (text : String) : (Path.ofString text).Proper := by
  intro name hname
  simp only [Path.ofString, Path.partsOfText, List.mem_map, List.mem_filter] at hname
  obtain ⟨piece, ⟨hpiece, hne⟩, rfl⟩ := hname
  simp only [ne_eq, Bool.and_eq_true, decide_eq_true_eq] at hne
  exact Store.isPart_of_mem_splitOn hpiece hne.1

/-- Reading a text drops the name `.`. -/
theorem Path.ne_dot_of_mem_ofString {text name : String} (h : name ∈ (Path.ofString text).parts) :
    name ≠ "." := by
  simp only [Path.ofString, Path.partsOfText, List.mem_map, List.mem_filter] at h
  obtain ⟨piece, ⟨-, hpiece⟩, rfl⟩ := h
  rintro heq
  obtain rfl : piece = ['.'] := String.ofList_injective heq
  simp at hpiece

namespace Store

variable {s : Store} {last : LastLink} {links : ℕ} {directory : Location} {name : String}
  {names : List String} {t : Target}

/-- A name that can stand in a path that the file system accepts. -/
structure IsClean (name : String) : Prop extends IsPart name where
  noNul : '\x00' ∉ name.toList

theorem isClean_of_mem_linkNames {text : String} (htext : '\x00' ∉ text.toList)
    (h : name ∈ linkNames text) : IsClean name := by
  have hnames (h : name ∈ textNames text) : IsClean name := by
    simp only [textNames, List.mem_map, List.mem_filter] at h
    obtain ⟨piece, ⟨hpiece, hne⟩, rfl⟩ := h
    refine ⟨isPart_of_mem_splitOn hpiece (by simpa using hne), ?_⟩
    intro hnul
    exact htext ((mem_splitOn hpiece).2 _ (by simpa using hnul))
  unfold linkNames at h
  split at h
  · rcases List.mem_append.mp h with h | h
    · exact hnames h
    · obtain rfl : name = "." := by simpa using h
      exact ⟨⟨by decide, by decide⟩, by decide⟩
  · exact hnames h

theorem LookedUp.isName (h : LookedUp directory name) (hclean : IsClean name) : IsName name :=
  ⟨hclean.ne_empty, h.ne_dot, h.ne_dotDot, hclean.noSlash, hclean.noNul, h.short⟩

/-- A name that is found to be free can be given to an entry. -/
theorem Leads.isName (hs : s.WellFormed) (h : s.Leads last links directory names t)
    (hnames : ∀ n ∈ names, IsClean n) {d : Location} {n : String} (ht : t = .absent d n) :
    IsName n := by
  induction h with
  | done => cases ht
  | dot _ ih => exact ih (fun n hn ↦ hnames n (List.mem_cons_of_mem _ hn)) ht
  | dotDot _ ih => exact ih (fun n hn ↦ hnames n (List.mem_cons_of_mem _ hn)) ht
  | absent hname _ =>
    cases ht
    exact hname.isName (hnames _ List.mem_cons_self)
  | enter _ _ _ ih => exact ih (fun n hn ↦ hnames n (List.mem_cons_of_mem _ hn)) ht
  | file => cases ht
  | kept => cases ht
  | follow _ hentry _ _ _ ih =>
    refine ih (fun n hn ↦ ?_) ht
    rcases List.mem_append.mp hn with hn | hn
    · exact isClean_of_mem_linkNames (hs.link hentry) hn
    · exact hnames n (List.mem_cons_of_mem _ hn)

theorem isClean_of_mem {p : Path} (hp : p.Proper) (hnul : p.hasNul = false) (h : name ∈ p.parts) :
    IsClean name := by
  refine ⟨hp name h, ?_⟩
  simpa using (List.any_eq_false.mp hnul) name h

theorem isName_of_target_absent (hs : s.WellFormed) {p : Path} (hp : p.Proper)
    (hnul : p.hasNul = false) (h : s.target last p = .ok (.absent directory name)) : IsName name :=
  (target_eq_ok_iff.mp h).2.isName hs (fun _ hn ↦ isClean_of_mem hp hnul hn) rfl

/-- The last name of a path lies in a directory. -/
theorem dir_of_slot (hs : s.WellFormed) {p : Path} (h : s.slot p = .ok (.name directory name)) :
    s.entry? directory = some .dir := by
  obtain ⟨-, front, -, hfront, hname⟩ := slot_eq_name_iff.mp h
  rcases hfront.sound hs (standing_start hs p) with hdir | ⟨-, hremoved, -⟩
  · exact hdir
  · simp [hname.there] at hremoved

theorem isName_of_slot {p : Path} (hp : p.Proper) (hnul : p.hasNul = false)
    (h : s.slot p = .ok (.name directory name)) : IsName name := by
  obtain ⟨-, front, hparts, -, hname⟩ := slot_eq_name_iff.mp h
  exact hname.isName (isClean_of_mem hp hnul (by simp [hparts]))

end Store

theorem IsName.isClean {name : String} (h : IsName name) : Store.IsClean name :=
  ⟨h.isPart, h.noNul⟩

end DeferredOps
