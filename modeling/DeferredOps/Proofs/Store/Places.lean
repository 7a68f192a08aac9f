import DeferredOps.Proofs.Store.Agreement
import DeferredOps.Proofs.Store.LinkFree

/-!
# Where paths point

What stands in a store decides whether a path leads anywhere, but where it can lead is decided by the
symbolic links alone. A path therefore points to one location, and goes on doing so while files and
directories come and go and the links stay.
-/

namespace DeferredOps

namespace Store

/-- The same symbolic links stand at the same locations. -/
def SameLinks (s s' : Store) : Prop :=
  ∀ l text, s'.entry? l = some (.link text) ↔ s.entry? l = some (.link text)

/-- No symbolic link stands at or below a location. -/
def NoLinks (s : Store) (location : Location) : Prop :=
  ∀ l text, location <+: l → s.entry? l ≠ some (.link text)

/-- No symbolic link stands at a location or on the way to it. -/
def NoLinksTo (s : Store) (location : Location) : Prop :=
  ∀ l text, l <+: location → s.entry? l ≠ some (.link text)

/-- With these symbolic links and this start the path leads to the location if it leads anywhere. A
link at its end is not followed. -/
def Points (s : Store) (p : Path) (location : Location) : Prop :=
  ∀ s' t, s.SameLinks s' → s'.start p = s.start p →
    s'.Leads .kept linkLimit (s'.start p) p.parts t → t.location = location

/-- With the symbolic links that there are, and from where it starts, the path can lead to the
location: other entries may come and go for it. A link at its end is not followed. -/
def CanLead (s : Store) (p : Path) (location : Location) : Prop :=
  ∃ s' t, s.SameLinks s' ∧ s'.start p = s.start p ∧
    s'.Leads .kept linkLimit (s'.start p) p.parts t ∧ location = t.location

/-- The path can only lead to where no symbolic links are. -/
def LinkFreeAt (s : Store) (p : Path) : Prop :=
  ∀ location, s.CanLead p location → s.NoLinks location

variable {s s' s'' : Store} {last : LastLink} {links : ℕ} {directory location : Location}
  {name : String} {names : List String} {t : Target} {p : Path}

/-! ## Links that stay -/

theorem SameLinks.refl (s : Store) : s.SameLinks s :=
  fun _ _ ↦ Iff.rfl

theorem SameLinks.symm (h : s.SameLinks s') : s'.SameLinks s :=
  fun l text ↦ (h l text).symm

theorem SameLinks.trans (h : s.SameLinks s') (h' : s'.SameLinks s'') : s.SameLinks s'' :=
  fun l text ↦ (h' l text).trans (h l text)

/-- Directories are no symbolic links. -/
theorem GrowsDirs.sameLinks (h : s.GrowsDirs s') : s.SameLinks s' :=
  fun _ _ ↦ ⟨fun hl ↦ (h.added hl).resolve_right (by simp), h.kept⟩

theorem LinkFree.of_sameLinks (hfree : s.LinkFree) (h : s.SameLinks s') : s'.LinkFree :=
  fun l text hl ↦ hfree l text ((h l text).mp hl)

theorem LinkFree.noLinks (hfree : s.LinkFree) (location : Location) : s.NoLinks location :=
  fun l text _ ↦ hfree l text

theorem LinkFree.noLinksTo (hfree : s.LinkFree) (location : Location) : s.NoLinksTo location :=
  fun l text _ ↦ hfree l text

namespace NoLinksTo

theorem here (h : s.NoLinksTo location) (text : String) : s.entry? location ≠ some (.link text) :=
  h location text (List.prefix_refl _)

theorem mono {above : Location} (h : s.NoLinksTo location) (habove : above <+: location) :
    s.NoLinksTo above :=
  fun l text hl ↦ h l text (hl.trans habove)

/-- The way to an entry that is no symbolic link leads over directories. -/
theorem of_entry {entry : Entry} (hs : s.WellFormed) (hentry : s.entry? location = some entry)
    (hlink : entry.isLink = false) : s.NoLinksTo location := by
  intro l text hl hthere
  by_cases heq : l = location
  · subst heq
    cases hentry.symm.trans hthere
    cases hlink
  · obtain ⟨rest, rfl⟩ := hl
    cases (hs.dir_of_append (by simpa using heq) hentry).symm.trans hthere

end NoLinksTo

namespace NoLinks

theorem of_entries (h : ∀ e ∈ s.entries, location <+: e.1 → e.2.isLink = false) :
    s.NoLinks location := by
  intro l text hl hentry
  have hne : l ≠ [] := by
    rintro rfl
    simp at hentry
  simpa [Entry.isLink] using h _ (mem_entries hne hentry) hl

theorem here (h : s.NoLinks location) (text : String) : s.entry? location ≠ some (.link text) :=
  h location text (List.prefix_refl _)

theorem mono {below : Location} (h : s.NoLinks location) (hbelow : location <+: below) :
    s.NoLinks below :=
  fun l text hl ↦ h l text (hbelow.trans hl)

theorem child (h : s.NoLinks location) (name : String) : s.NoLinks (location ++ [name]) :=
  h.mono (List.prefix_append _ _)

theorem congr (h : s.NoLinks location) (hlinks : s.SameLinks s') : s'.NoLinks location :=
  fun l text hl hentry ↦ h l text hl ((hlinks l text).mp hentry)

end NoLinks

/-! ## The location of a target -/

theorem Leads.ne_link {entry : Entry} (h : s.entry? (directory ++ [name]) = some entry)
    (hlinks : s.SameLinks s') (hlink : entry.isLink = false) (text : String) :
    s'.entry? (directory ++ [name]) ≠ some (.link text) := by
  intro hentry
  rw [hlinks, h] at hentry
  cases hentry
  cases hlink

/-- A last name that is no symbolic link to be followed is that of the target. -/
theorem Leads.location_last (hdot : name ≠ ".") (hdotDot : name ≠ "..")
    (hlink : last = .kept ∨ ∀ text, s.entry? (directory ++ [name]) ≠ some (.link text))
    (h : s.Leads last links directory [name] t) : t.location = directory ++ [name] := by
  cases h with
  | dot => exact absurd rfl hdot
  | dotDot => exact absurd rfl hdotDot
  | absent => rfl
  | enter _ _ h =>
    cases h
    rfl
  | file => rfl
  | kept => rfl
  | follow _ hentry hkept =>
    rcases hlink with rfl | hlink
    · simp at hkept
    · exact absurd hentry (hlink _)

/-- Names without `.` and `..` lead down to where no symbolic link is on the way. -/
theorem Leads.location_eq_append (h : s.Leads last links directory names t)
    (hnames : ∀ name ∈ names, name ≠ "." ∧ name ≠ "..") (hway : s.NoLinksTo (directory ++ names)) :
    t.location = directory ++ names := by
  induction h with
  | done => simp [Target.location]
  | dot => exact absurd rfl (hnames _ List.mem_cons_self).1
  | dotDot => exact absurd rfl (hnames _ List.mem_cons_self).2
  | absent | file => rfl
  | enter _ _ _ ih =>
    rw [List.append_cons] at hway ⊢
    exact ih (fun n hn ↦ hnames n (List.mem_cons_of_mem _ hn)) hway
  | kept _ hentry | follow _ hentry =>
    exact absurd hentry (hway _ _ (by simp))

/-- In stores with the same symbolic links the same names lead to the same location. -/
theorem Leads.same_location {more : ℕ} {t' : Target} (h : s.Leads last links directory names t)
    (hlinks : s.SameLinks s') (h' : s'.Leads last more directory names t') :
    t'.location = t.location := by
  induction h generalizing more with
  | done =>
    cases h'
    rfl
  | dot _ ih => exact ih (leads_dot_iff.mp h')
  | dotDot _ ih => exact ih (leads_dotDot_iff.mp h')
  | absent hname hentry =>
    refine h'.location_last hname.ne_dot hname.ne_dotDot (.inr fun text hl ↦ ?_)
    rw [hlinks, hentry] at hl
    cases hl
  | enter hname hentry h ih =>
    have hlink := Leads.ne_link hentry hlinks rfl
    cases h' with
    | dot => exact absurd rfl hname.ne_dot
    | dotDot => exact absurd rfl hname.ne_dotDot
    | absent =>
      cases h
      rfl
    | enter _ _ h' => exact ih h'
    | file =>
      cases h
      rfl
    | kept _ hl => exact absurd hl (hlink _)
    | follow _ hl => exact absurd hl (hlink _)
  | file hname hentry =>
    exact h'.location_last hname.ne_dot hname.ne_dotDot (.inr (Leads.ne_link hentry hlinks rfl))
  | kept hname _ => exact h'.location_last hname.ne_dot hname.ne_dotDot (.inl rfl)
  | follow hname hentry hkept _ _ ih =>
    have hlink := (hlinks _ _).mpr hentry
    cases h' with
    | dot => exact absurd rfl hname.ne_dot
    | dotDot => exact absurd rfl hname.ne_dotDot
    | absent _ hnone => cases hnone.symm.trans hlink
    | enter _ hdir => cases hdir.symm.trans hlink
    | file _ hfile => cases hfile.symm.trans hlink
    | kept => simp at hkept
    | follow _ hl _ _ h' =>
      cases hl.symm.trans hlink
      exact ih h'

/-- Names that lead over a symbolic link at their end lead to the link itself when it is kept. -/
theorem Leads.exists_kept (h : s.Leads last links directory names t) :
    ∃ t', s.Leads .kept links directory names t' ∧
      (t' = t ∨ ∃ text, s.entry? t'.location = some (.link text)) := by
  induction h with
  | done => exact ⟨_, .done, .inl rfl⟩
  | dot _ ih =>
    obtain ⟨t', hleads, hsame⟩ := ih
    exact ⟨t', .dot hleads, hsame⟩
  | dotDot _ ih =>
    obtain ⟨t', hleads, hsame⟩ := ih
    exact ⟨t', .dotDot hleads, hsame⟩
  | absent hname hentry => exact ⟨_, .absent hname hentry, .inl rfl⟩
  | enter hname hentry _ ih =>
    obtain ⟨t', hleads, hsame⟩ := ih
    exact ⟨t', .enter hname hentry hleads, hsame⟩
  | file hname hentry => exact ⟨_, .file hname hentry, .inl rfl⟩
  | kept hname hentry => exact ⟨_, .kept hname hentry, .inl rfl⟩
  | @follow _ _ _ _ rest text _ hname hentry _ _ _ ih =>
    by_cases hrest : rest = []
    · subst hrest
      exact ⟨_, .kept hname hentry, .inr ⟨text, hentry⟩⟩
    · obtain ⟨t', hleads, hsame⟩ := ih
      exact ⟨t', .follow hname hentry (.inl hrest) (.inl hrest) hleads, hsame⟩

/-! ## What a path points to -/

theorem start_of_current (h : p.isAbsolute ∨ s'.current = s.current) : s'.start p = s.start p := by
  unfold start
  rcases h with htop | hcurrent
  · rw [if_pos htop, if_pos htop]
  · rw [hcurrent]

theorem points_of_target (h : s.target .kept p = .ok t) : s.Points p t.location := by
  intro s' t' hlinks hstart h'
  rw [hstart] at h'
  exact (target_eq_ok_iff.mp h).2.same_location hlinks h'

theorem LinkFree.points (hfree : s.LinkFree) (p : Path) : s.Points p (s.place p) := by
  intro s' t hlinks hstart h
  rw [hstart] at h
  exact h.location_eq (hfree.of_sameLinks hlinks)

/-- The name in the directory that a path leads to is what the longer path points to. -/
theorem points_child (h : s.target .followed p = .ok (.found directory .dir))
    (hdot : name ≠ ".") (hdotDot : name ≠ "..") :
    s.Points (p.child name) (directory ++ [name]) := by
  intro s' t hlinks hstart hleads
  have hparts : s'.Leads .kept linkLimit (s'.start p) (p.parts ++ [name]) t := hleads
  obtain ⟨middle, k, -, hfront, hlast⟩ := hparts.split (by simp)
  have hstart' : s'.start p = s.start p := hstart
  rw [hstart'] at hfront
  obtain rfl : middle = directory := (target_eq_ok_iff.mp h).2.same_location hlinks hfront
  exact hlast.location_last hdot hdotDot (.inl rfl)

/-- A name that can be looked up in the directory that a path leads to can be led to. -/
theorem canLead_child (h : s.target .followed p = .ok (.found directory .dir))
    (hname : LookedUp directory name) : s.CanLead (p.child name) (directory ++ [name]) := by
  have hfront := (target_eq_ok_iff.mp h).2
  suffices hlast : ∃ t, s.Leads .kept 0 directory [name] t ∧
      directory ++ [name] = t.location by
    obtain ⟨t, hlast, hlocation⟩ := hlast
    exact ⟨s, t, .refl s, rfl, hfront.join hlast (by simp), hlocation⟩
  cases hentry : s.entry? (directory ++ [name]) with
  | none => exact ⟨_, .absent hname hentry, rfl⟩
  | some entry =>
    cases entry with
    | dir => exact ⟨_, .enter hname hentry .done, rfl⟩
    | file => exact ⟨_, .file hname hentry, rfl⟩
    | link => exact ⟨_, .kept hname hentry, rfl⟩

/-- Where no links are that a name in a directory can lead to, none are at or below that name. -/
theorem noLinks_child (hs : s.WellFormed) (h : s.target .followed p = .ok (.found directory .dir))
    (hname : IsName name) (hfree : s.LinkFreeAt (p.child name)) :
    s.NoLinks (directory ++ [name]) := by
  by_cases hremoved : isRemoved directory
  · -- Nothing is in a directory that has been removed.
    intro l text hl hentry
    obtain ⟨rest, rfl⟩ := hl
    rw [List.append_assoc] at hentry
    have hdir := hs.dir_of_append (by simp) hentry
    simp [hs.not_isRemoved hdir] at hremoved
  · exact hfree _ (canLead_child h
      ⟨hname.ne_dot, hname.ne_dotDot, by simpa using hremoved, hname.short⟩)

/-- A path points to the one location that it can lead to, or to any where nothing is. -/
theorem exists_points (hs : s.WellFormed) (h : s.LinkFreeAt p) :
    ∃ location, s.Points p location ∧ s.NoLinks location ∧
      (s.CanLead p location ∨ ∀ l, location <+: l → s.entry? l = none) := by
  by_cases hcan : ∃ location, s.CanLead p location
  · obtain ⟨location, hcan⟩ := hcan
    have hno := h location hcan
    obtain ⟨made, t, hlinks, hstart, hleads, rfl⟩ := id hcan
    refine ⟨t.location, fun s' t' hlinks' hstart' hleads' ↦ ?_, hno, .inl hcan⟩
    rw [hstart', ← hstart] at hleads'
    exact hleads.same_location (hlinks.symm.trans hlinks') hleads'
  · have hnone (l : Location) (hl : [""] <+: l) : s.entry? l = none := by
      refine Option.eq_none_iff_forall_not_mem.mpr fun e hentry ↦ ?_
      exact (hs.isName_of_mem hentry (hl.subset List.mem_cons_self)).ne_empty rfl
    refine ⟨[""], fun s' t hlinks hstart hleads ↦ ?_, fun l text hl ↦ by simp [hnone l hl], .inr hnone⟩
    exact absurd ⟨_, s', t, hlinks, hstart, hleads, rfl⟩ hcan

theorem LinkFree.linkFreeAt (hfree : s.LinkFree) (p : Path) : s.LinkFreeAt p :=
  fun location _ ↦ hfree.noLinks location

/-- What stands where the path leads decides whether links are where it can lead. -/
theorem linkFreeAt_of_target (h : s.target .kept p = .ok t) (hlinks : s.NoLinks t.location) :
    s.LinkFreeAt p := by
  rintro location ⟨s', t', hsame, hstart, hleads, rfl⟩
  rwa [points_of_target h s' t' hsame hstart hleads]

theorem LinkFreeAt.congr (h : s.LinkFreeAt p) (hlinks : s.SameLinks s')
    (hstart : s'.start p = s.start p) : s'.LinkFreeAt p := by
  rintro location ⟨t, u, hlinks', hstart', hleads, heq⟩
  exact (h location ⟨t, u, hlinks.trans hlinks', hstart'.trans hstart, hleads, heq⟩).congr hlinks

theorem CanLead.eq_place (h : s.CanLead p location) (hfree : s.LinkFree) : location = s.place p := by
  obtain ⟨s', t, hlinks, hstart, hleads, rfl⟩ := h
  exact hfree.points p s' t hlinks hstart hleads

theorem CanLead.congr (h : s'.CanLead p location) (hlinks : s.SameLinks s')
    (hstart : s'.start p = s.start p) : s.CanLead p location := by
  obtain ⟨t, u, hlinks', hstart', hleads, heq⟩ := h
  exact ⟨t, u, hlinks.trans hlinks', hstart'.trans hstart, hleads, heq⟩

namespace Points

theorem eq_of_canLead {other : Location} (h : s.Points p location) (hcan : s.CanLead p other) :
    other = location := by
  obtain ⟨s', t, hlinks, hstart, hleads, rfl⟩ := hcan
  exact h s' t hlinks hstart hleads

theorem congr (h : s.Points p location) (hlinks : s.SameLinks s')
    (hstart : s'.start p = s.start p) : s'.Points p location :=
  fun u t hlinks' hstart' ↦ h u t (hlinks.trans hlinks') (hstart'.trans hstart)

theorem grows (h : s.Points p location) (hg : s.GrowsDirs s') : s'.Points p location :=
  h.congr (GrowsDirs.sameLinks hg) (hg.start p)

theorem leads (h : s.Points p location) (hlink : ∀ text, s.entry? location ≠ some (.link text))
    (hleads : s.Leads last linkLimit (s.start p) p.parts t) : t.location = location := by
  obtain ⟨t', hkept, heq⟩ := hleads.exists_kept
  have hlocation := h s t' (.refl s) rfl hkept
  rcases heq with rfl | ⟨text, hentry⟩
  · exact hlocation
  · rw [hlocation] at hentry
    exact absurd hentry (hlink text)

theorem target (h : s.Points p location) (hlink : ∀ text, s.entry? location ≠ some (.link text))
    (htarget : s.target last p = .ok t) : t.location = location :=
  h.leads hlink (target_eq_ok_iff.mp htarget).2

theorem slot (h : s.Points p location) (hslot : s.slot p = .ok (.name directory name)) :
    directory ++ [name] = location := by
  have hlocation := h s _ (.refl s) rfl (target_eq_ok_iff.mp (target_kept_of_slot hslot)).2
  cases hentry : s.entry? (directory ++ [name]) <;> rwa [hentry] at hlocation

/-- What a path leads to without following a link at its end is what it leads to. -/
theorem followed (h : s.Points p location) (hs : s.WellFormed)
    (hlink : ∀ text, s.entry? location ≠ some (.link text)) {mode : LastLink}
    (htarget : s.target .kept p = .ok t) : s.target mode p = .ok t := by
  obtain ⟨hshort, hleads⟩ := target_eq_ok_iff.mp htarget
  refine target_eq_ok_iff.mpr ⟨hshort, hleads.last_irrelevant fun l text heq ↦ ?_⟩
  subst heq
  obtain rfl : l = location := h s _ (.refl s) rfl hleads
  exact hlink text ((sound_of_target hs htarget).resolve_right (by simp))

theorem child (h : s.Points p location) (hlink : ∀ text, s.entry? location ≠ some (.link text))
    (hdot : name ≠ ".") (hdotDot : name ≠ "..") :
    s.Points (p.child name) (location ++ [name]) := by
  intro s' t hlinks hstart hleads
  have hparts : s'.Leads .kept linkLimit (s'.start p) (p.parts ++ [name]) t := hleads
  obtain ⟨middle, k, -, hfront, hlast⟩ := hparts.split (by simp)
  have hlink' (text : String) : s'.entry? location ≠ some (.link text) := by
    rw [ne_eq, hlinks]
    exact hlink text
  obtain rfl : middle = location := (h.congr hlinks hstart).leads hlink' hfront
  exact hlast.location_last hdot hdotDot (.inl rfl)

end Points

end Store

end DeferredOps
