import DeferredOps.Proofs.Counting
import DeferredOps.Proofs.Deletions
import DeferredOps.Proofs.Reports
import DeferredOps.Proofs.Store.Leaves

/-!
# Deletions by a pattern

A deletion by a pattern has the effect that the pattern had when it began, or none. The files that
match are removed in ascending order. A symbolic link that is one of them is removed itself, although
what it leads to may be gone by then, and no removal changes the way to their directory.
-/

namespace DeferredOps

open Action

namespace Executor

open RunAction Store

/-- The files of some names have been deleted from a directory, each counted and reported, and
nothing else has changed. -/
structure DeletedFiles (r : Run) (p : Path) (directory : Location) (names : List String) (r' : Run) :
    Prop where
  store : r.store.Without (fun l ↦ ∃ name ∈ names, l = directory ++ [name]) r'.store
  current : r'.store.current = r.store.current
  counters (name : String) : r'.counters.value name =
    r.counters.value name + if name = "deleted" then (names.length : ℤ) else 0
  notices : r'.notices = r.notices ++
    names.map fun name ↦ (.info, "Delete file: " ++ (p.child name).text)
  silent : r'.journal.file = none

variable {x : Executor} {r r' : Run} {p : Path} {directory : Location} {name pattern : String}
  {done names : List String} {wildcard : Wildcard}

theorem DeletedFiles.refl (hs : r.store.WellFormed) (hsilent : r.journal.file = none) :
    DeletedFiles r p directory [] r where
  store := (Without.refl hs).congr fun _ ↦ by simp
  current := rfl
  counters _ := by simp
  notices := by simp
  silent := hsilent

/-- A path leads to a directory whose names of leaves make paths that are not too long. -/
structure Holds (s : Store) (p : Path) (directory : Location) (names : List String) : Prop where
  wellFormed : s.WellFormed
  clean : p.hasNul = false
  found : s.target .followed p = .ok (.found directory .dir)
  leaf {name : String} (h : name ∈ names) : s.Leaf (directory ++ [name])
  short {name : String} (h : name ∈ names) : (p.child name).text.utf8ByteSize < pathLimit

/-- The deletion of what can be unlinked is reported and counted. -/
theorem run_deleteFile_of_unlink {s' : Store} (hsilent : r.journal.file = none)
    (hclean : p.hasNul = false) (hunlink : r.store.unlink p = .ok s') :
    (Executor.deleteFile p).run r = (.ok (), { r.noted .info ("Delete file: " ++ p.text) with
      store := s', counters := r.counters.increment "deleted" }) := by
  have hinfo : (info ("Delete file: " ++ p.text)).run r =
      (.ok (), r.noted .info ("Delete file: " ++ p.text)) := by
    rw [info, run_report, hsilent]
  have hremoved : (StoreAction.unlink p).run (r.noted .info ("Delete file: " ++ p.text)).store =
      (.ok (), s') := by
    change (StoreAction.unlink p).run r.store = _
    rw [StoreAction.run_unlink, hclean, hunlink]
    rfl
  unfold Executor.deleteFile
  rw [run_bind, hinfo]
  dsimp only
  rw [run_bind, run_onStore, hremoved]
  rfl

/-- The deletion of one more file, after those of others in the same directory. -/
theorem DeletedFiles.deleteFile (h : DeletedFiles r p directory done r')
    (hplace : Holds r.store p directory names) (hdone : done ⊆ names) (hname : name ∈ names)
    (hfresh : name ∉ done) :
    ∃ r'', (Executor.deleteFile (p.child name)).run r' = (.ok (), r'') ∧
      DeletedFiles r p directory (done ++ [name]) r'' := by
  have hs := hplace.wellFormed
  obtain ⟨entry, hentry, hne⟩ := (hplace.leaf hname).exists_entry
  have hthere : r'.store.entry? (directory ++ [name]) = some entry := by
    rw [h.store.stays (by simpa using hfresh), hentry]
  -- Only leaves are gone, so the directory is found where it was.
  have hunlink : r'.store.unlink (p.child name) = .ok (r'.store.erase (directory ++ [name])) := by
    refine unlink_of_leaves hs hplace.found (fun l e hl ↦ ?_) h.current hentry hne hthere
      (hplace.short hname)
    by_cases hgone : ∃ name ∈ done, l = directory ++ [name]
    · obtain ⟨other, hother, rfl⟩ := hgone
      exact .inl (hplace.leaf (hdone hother))
    · exact .inr ((h.store.stays hgone).trans hl)
  have hclean : (p.child name).hasNul = false :=
    (Path.hasNul_child (hs.name hentry).isClean).trans hplace.clean
  refine ⟨_, run_deleteFile_of_unlink h.silent hclean hunlink, ?_, ?_, fun other ↦ ?_, ?_, h.silent⟩
  · have herased : r'.store.Without (· = directory ++ [name]) _ :=
      without_erase h.store.wellFormed (by simp) fun below ↦ h.store.wellFormed.none_of_append (by simp)
        fun heq ↦ hne (Option.some.inj (hthere.symm.trans heq))
    refine (h.store.trans herased).congr fun _ ↦ ?_
    simp [or_and_right, exists_or]
  · exact (h.store.wellFormed.current_erase hthere hne).trans h.current
  · rw [Counters.value_increment_eq, h.counters]
    split <;> push_cast [List.length_append, List.length_singleton] <;> omega
  · have hnoted := (Run.reported_noted .info ("Delete file: " ++ (p.child name).text) r').notices
    change (r'.noted .info ("Delete file: " ++ (p.child name).text)).notices = _
    rw [hnoted, h.notices]
    simp

/-- The deletion of files of a directory one after another. -/
theorem exists_deletedFiles (hplace : Holds r.store p directory names) (hnodup : names.Nodup)
    (hsilent : r.journal.file = none) :
    ∃ r', ((names.map p.child).forM deleteFile).run r = (.ok (), r') ∧
      DeletedFiles r p directory names r' := by
  have hall (done rest : List String) (hsplit : done ++ rest = names)
      {r' : Run} (h : DeletedFiles r p directory done r') :
      ∃ r'', ((rest.map p.child).forM deleteFile).run r' = (.ok (), r'') ∧
        DeletedFiles r p directory names r'' := by
    induction rest generalizing done r' with
    | nil =>
      rw [List.append_nil] at hsplit
      exact ⟨r', rfl, hsplit ▸ h⟩
    | cons name rest ih =>
      have hfresh : name ∉ done := by
        rw [← hsplit] at hnodup
        exact fun hmem ↦ List.disjoint_of_nodup_append hnodup hmem List.mem_cons_self
      obtain ⟨r₁, hrun, h₁⟩ := h.deleteFile hplace (hsplit ▸ List.subset_append_left ..)
        (hsplit ▸ List.mem_append_right _ List.mem_cons_self) hfresh
      obtain ⟨r₂, hrest, h₂⟩ := ih (done ++ [name]) (by simpa using hsplit) h₁
      refine ⟨r₂, ?_, h₂⟩
      change (deleteFile (p.child name) >>= fun _ ↦ (rest.map p.child).forM deleteFile).run r' = _
      rw [run_bind, hrun]
      exact hrest
  exact hall [] names rfl (.refl hplace.wellFormed hsilent)

/-- A pattern that can be split holds a wildcard character. -/
theorem hasWildcard_of_split (h : Wildcard.ofString pattern = .ok wildcard) :
    Path.hasWildcard pattern := by
  have hname : Path.hasWildcard (Path.ofString pattern).name := by
    by_contra hliteral
    rw [Bool.not_eq_true] at hliteral
    simp [Wildcard.ofString, hliteral] at h
  obtain ⟨c, hc, hwild⟩ := List.any_eq_true.mp hname
  obtain ⟨last, hlast⟩ : ∃ last, (Path.ofString pattern).parts.getLast? = some last := by
    cases hlast : (Path.ofString pattern).parts.getLast? with
    | some last => exact ⟨last, rfl⟩
    | none => simp [Path.name, hlast] at hc
  have hmem : last ∈ Path.partsOfText pattern.toList := List.mem_of_getLast? hlast
  obtain ⟨piece, hpiece, rfl⟩ := List.mem_map.mp hmem
  rw [Path.name, hlast, Option.getD_some, String.toList_ofList] at hc
  exact List.any_eq_true.mpr ⟨c, (mem_splitOn (List.mem_filter.mp hpiece).1).2 c hc, hwild⟩

/-- A deletion that fails before it has done anything is counted and reported once. -/
theorem run_delete_of_unlisted {f : Failure} (hsplit : Wildcard.ofString pattern = .ok wildcard)
    (hsilent : r.journal.file = none)
    (hfailed : r.store.matchingFiles (Path.below x.workingDirectory wildcard.parent)
      wildcard.expression = .error f) (hf : f.isSystem) :
    (x.delete pattern).run r =
      (.ok (), Run.noted { r with counters := r.counters.increment "failed" } .warning
        (Report.failedDelete (Path.resolve pattern x.workingDirectory) f.reason)) := by
  refine (run_surviving_of_failed ?_ hf).trans (run_report_of_silent .warning _ hsilent)
  rw [if_pos (hasWildcard_of_split hsplit), splitWildcard, hsplit, pure_bind, run_bind, matchingFiles,
    run_ask, hfailed]

/-- A deletion by a pattern ends as the loop over its files does. -/
theorem run_delete_of_listed (hsplit : Wildcard.ofString pattern = .ok wildcard)
    (hnames : r.store.matchingNames (Path.below x.workingDirectory wildcard.parent)
      wildcard.expression = .ok names)
    (hrun : ((names.map (Path.below x.workingDirectory wildcard.parent).child).forM deleteFile).run r =
      (.ok (), r')) : (x.delete pattern).run r = (.ok (), r') := by
  unfold delete surviving
  rw [run_tryCatch, if_pos (hasWildcard_of_split hsplit), splitWildcard, hsplit, pure_bind, run_bind,
    matchingFiles, run_ask, Store.matchingFiles, hnames]
  dsimp only [Except.map]
  rw [hrun]

/-- A deletion by a pattern takes the files and the links to files that match when it begins, one
after another in ascending order, or nothing at all if its directory cannot be read. -/
theorem deletedFiles_of_delete (x : Executor) {pattern : String} {wildcard : Wildcard} {r : Run}
    (hs : r.store.WellFormed) (hsilent : r.journal.file = none)
    (hsplit : Wildcard.ofString pattern = .ok wildcard)
    (hnul : (Path.below x.workingDirectory wildcard.parent).hasNul = false) :
    let p := Path.below x.workingDirectory wildcard.parent
    let r' := ((x.perform (.delete pattern)).run r).2
    ((x.perform (.delete pattern)).run r).1 = .ok () ∧
      ((∀ directory, ¬ r.store.Readable p directory) →
        r'.store = r.store ∧ r'.counters = r.counters.increment "failed" ∧
          ∃ reason, r'.notices = r.notices ++
            [(.warning, Report.failedDelete (Path.resolve pattern x.workingDirectory) reason)]) ∧
      ∀ directory, r.store.Readable p directory →
        (∀ name, r.store.NamesFile p directory name →
          NamePattern.matchesName wildcard.expression name →
            (p.child name).text.utf8ByteSize < pathLimit) →
        ∃ names : List String, names.Pairwise (· < ·) ∧
          (∀ name, name ∈ names ↔ r.store.NamesFile p directory name ∧
            NamePattern.matchesName wildcard.expression name) ∧
          DeletedFiles r p directory names r' := by
  intro p r'
  refine ⟨?_, fun hunreadable ↦ ?_, fun directory hreadable hshort ↦ ?_⟩
  · have hkeeps : Keeps (Run.Sound Store.WellFormed False) (fun _ ↦ False) (x.delete pattern) := by
      refine keeps_delete invariant_wellFormed x id (fun e _ he ↦ ?_) fun other _ hother h ↦ ?_
      · cases hsplit.symm.trans he
      · cases hsplit.symm.trans hother
        simp [hnul] at h
    cases hresult : ((x.perform (.delete pattern)).run r).1 with
    | ok => rfl
    | error f =>
      exact (hkeeps.failure ⟨hs, fun _ h ↦ absurd (hsilent.symm.trans h) (by simp)⟩ hresult).elim
  · obtain ⟨f, hnames⟩ := matchingNames_of_unreadable hunreadable wildcard.expression
    have hfiles : r.store.matchingFiles p wildcard.expression = .error f := by
      rw [Store.matchingFiles, hnames]
      rfl
    have hf : f.isSystem :=
      (ofChange_of_matchingFiles hfiles).resolve_right fun h ↦ by simp [p, hnul] at h
    have hrun := run_delete_of_unlisted hsplit hsilent hfiles hf
    have hnoted := Run.reported_noted .warning
      (Report.failedDelete (Path.resolve pattern x.workingDirectory) f.reason)
      { r with counters := r.counters.increment "failed" }
    have hr' : r' = _ := congrArg Prod.snd hrun
    rw [hr']
    exact ⟨rfl, rfl, f.reason, hnoted.notices⟩
  · obtain ⟨names, hnames, hsorted, hmem⟩ := matchingNames_of_readable hs hreadable wildcard.expression
    obtain ⟨-, hfound⟩ := listed_eq_ok_iff.mp hreadable.listed
    have hplace : Holds r.store p directory names :=
      { wellFormed := hs
        clean := hnul
        found := hfound
        leaf := fun hname ↦ leaf_of_namesFile hs hfound ((hmem _).mp hname).1
        short := fun hname ↦ hshort _ ((hmem _).mp hname).1 ((hmem _).mp hname).2 }
    have hnodup : names.Nodup := hsorted.imp fun hlt heq ↦ by simp [heq] at hlt
    obtain ⟨r₁, hrun, hdeleted⟩ := exists_deletedFiles hplace hnodup hsilent
    have hr' : r' = r₁ := congrArg Prod.snd (run_delete_of_listed hsplit hnames hrun)
    exact ⟨names, hsorted, hmem, hr' ▸ hdeleted⟩

/-- A link that is taken after the file that it leads to, and a link over a file because of which
nothing is taken. -/
theorem deletedFiles_of_delete_links :
    let s := ((((Store.empty.put ["d"] .dir).putFile ["d", "a"] [97]).put ["d", "c"] .dir).put
      ["d", "e"] (.link "missing")).put ["d", "z"] (.link "a")
    let t := s.put ["d", "o"] (.link "a/b")
    (∃ names : List String, names.Pairwise (· < ·) ∧
      (∀ name, name ∈ names ↔ s.NamesFile ⟨.top, ["d"]⟩ ["d"] name ∧ NamePattern.matchesName "*" name) ∧
      DeletedFiles (Run.first s) ⟨.top, ["d"]⟩ ["d"] names
        ((perform ⟨⟨.top, []⟩, none⟩ (.delete "d/*")).run (Run.first s)).2) ∧
    ((perform ⟨⟨.top, []⟩, none⟩ (.delete "d/*")).run (Run.first t)).2.store = t := by
  intro s t
  have hs : (Run.first s).store.WellFormed := by decide
  have ht : (Run.first t).store.WellFormed := by decide
  have hsplit : Wildcard.ofString "d/*" = .ok ⟨⟨.here, ["d"]⟩, "*"⟩ := by decide
  have hentries : s.entries = [(["d"], .dir), (["d", "a"], .file 0 [97]), (["d", "c"], .dir),
      (["d", "e"], .link "missing"), (["d", "z"], .link "a")] := by decide
  have hreadable : (Run.first s).store.Readable ⟨.top, ["d"]⟩ ["d"] := by
    refine ⟨rfl, fun {name text e} hlink hfailed ↦ ?_⟩
    have hmem := mem_entries (s := s) (by simp) hlink
    rw [hentries] at hmem
    obtain ⟨rfl, -⟩ | ⟨rfl, -⟩ : name = "e" ∧ text = "missing" ∨ name = "z" ∧ text = "a" := by
      simpa using hmem
    · cases hfailed
    · cases hfailed
  have hlooped (directory : Location) : ¬ (Run.first t).store.Readable ⟨.top, ["d"]⟩ directory := by
    intro h
    cases (rfl : (Run.first t).store.listed ⟨.top, ["d"]⟩ = .ok ["d"]).symm.trans h.listed
    cases (@Readable.link _ _ _ h "o" "a/b" .notDirectory rfl rfl)
  constructor
  · refine (deletedFiles_of_delete ⟨⟨.top, []⟩, none⟩ hs rfl hsplit (by decide)).2.2
      ["d"] hreadable fun name hname _ ↦ ?_
    obtain ⟨entry, hentry, -⟩ := (leaf_of_namesFile hs rfl hname).exists_entry
    have hlength := (hs.name hentry).short
    have hchild := Path.size_text_child ⟨.top, ["d"]⟩ name
    have hroom : (Path.text ⟨.top, ["d"]⟩).utf8ByteSize + nameLimit + 1 < pathLimit := by decide +kernel
    exact lt_of_le_of_lt hchild (by omega)
  · exact ((deletedFiles_of_delete ⟨⟨.top, []⟩, none⟩ ht rfl hsplit (by decide)).2.1 hlooped).1

/-- Two deletions that take something else than what matches: the path of a file that matches is too
long, and the report of a deletion goes to a file in the tree. -/
theorem not_deletedFiles_of_delete :
    (deepFile.WellFormed ∧ deepFile.Readable deepDirectory deepDirectory.parts ∧
      ¬ ∃ names : List String,
        (∀ name, name ∈ names ↔ deepFile.NamesFile deepDirectory deepDirectory.parts name ∧
          NamePattern.matchesName "*" name) ∧
        deepFile.Without (fun l ↦ ∃ name ∈ names, l = deepDirectory.parts ++ [name])
          ((perform ⟨deepDirectory, none⟩ (.delete "*")).run (Run.first deepFile)).2.store) ∧
    reporting.store.WellFormed ∧ reporting.store.Readable ⟨.top, []⟩ [] ∧
      ¬ ∃ names : List String,
        (∀ name, name ∈ names ↔ reporting.store.NamesFile ⟨.top, []⟩ [] name ∧
          NamePattern.matchesName "f*" name) ∧
        reporting.store.Without (fun l ↦ ∃ name ∈ names, l = [] ++ [name])
          ((perform ⟨⟨.top, []⟩, none⟩ (.delete "f*")).run reporting).2.store := by
  refine ⟨⟨wellFormed_deepFile, ⟨listed_deepFile, fun hlink _ ↦ absurd hlink (linkFree_deepFile _ _)⟩,
    ?_⟩, by decide, ⟨rfl, fun hlink _ ↦ ?_⟩, ?_⟩
  · rintro ⟨names, hmem, hwithout⟩
    have hbelow : Path.below deepDirectory Path.here = deepDirectory := by
      simp [Path.below, Path.isAbsolute, Path.here]
    have hstill := still_of_unreachable (x := ⟨deepDirectory, none⟩) (r := Run.first deepFile) rfl
      (rfl : Wildcard.ofString "*" = .ok ⟨Path.here, "*"⟩) (by decide) fun files hfiles file hfile ↦
        deepFile_unreachable (hbelow ▸ hfiles) hfile
    have hname : letters 250 ∈ names :=
      (hmem _).mpr ⟨.inl ⟨_, _, entry?_deepFile⟩, matchesName_star _⟩
    have hgone := hwithout.removed ⟨_, hname, rfl⟩
    rw [hstill] at hgone
    cases entry?_deepFile.symm.trans hgone
  · exact absurd hlink (LinkFree.of_entries (by decide) _ _)
  · rintro ⟨names, hmem, hwithout⟩
    have hreport :
        Store.entry? ((perform ⟨⟨.top, []⟩, none⟩ (.delete "f*")).run reporting).2.store ["e"] ≠
          none := by decide +kernel
    refine hreport (hwithout.stays ?_)
    rintro ⟨name, hname, heq⟩
    obtain rfl : "e" = name := by simpa using heq
    rcases ((hmem _).mp hname).1 with ⟨_, _, hfile⟩ | ⟨_, _, _, _, hlink, -⟩
    · cases hfile
    · cases hlink

end Executor

end DeferredOps
