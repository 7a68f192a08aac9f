import DeferredOps.Proofs.Executor
import DeferredOps.Proofs.Json.RoundTrip
import DeferredOps.Proofs.Settings
import DeferredOps.Proofs.Text.Utf8

/-!
# Settings from files

A configuration file is taken up as a whole or not at all. If it holds an object whose known settings
have values that they may have, its fields are laid over the defaults; else the defaults stay, and why is
printed. What is printed names the file, so it must be possible to name it. And bytes that are no text,
values too deep within each other and numbers with too many digits are not dealt with: they end the run.
-/

namespace DeferredOps

open Action RunAction

namespace Config

variable {r r' : Run} {path : Path} {config : Config} {fields : List (String × Json)}

/-! ## What is printed -/

/-- The run in which a text has been printed. -/
def printed (r : Run) (text : String) : Run :=
  { r with output := r.output ++ text }

@[simp]
theorem printed_printed (r : Run) (text more : String) :
    printed (printed r text) more = printed r (text ++ more) := by
  simp [printed, String.append_assoc]

/-- An action that does nothing but print a text. -/
def Prints (x : RunAction Unit) (text : String) : Prop :=
  ∀ r, x.run r = (.ok (), printed r text)

theorem prints_line {text : String} (h : Text.Escapeless text) : Prints (printLine text) (text ++ "\n") := by
  intro r
  unfold printLine
  rw [run_bind, run_get]
  simp only [Terminal.plain_of_escapeless h, ite_self, run_set]
  simp [printed, String.append_assoc]

theorem Prints.bind {x y : RunAction Unit} {text more : String} (hx : Prints x text) (hy : Prints y more) :
    Prints (x >>= fun _ ↦ y) (text ++ more) := by
  intro r
  rw [run_bind, hx r]
  exact (hy _).trans (by rw [printed_printed])

theorem prints_forM {α : Type} {elements : List α} {body : α → RunAction Unit} {text : α → String}
    (h : ∀ c ∈ elements, Prints (body c) (text c)) :
    Prints (elements.forM body) (String.join (elements.map text)) := by
  induction elements with
  | nil =>
    intro r
    simp [printed]
  | cons c rest ih =>
    have hrest := ih fun d hd ↦ h d (List.mem_cons_of_mem _ hd)
    rw [List.map_cons, String.join_cons]
    exact (h c List.mem_cons_self).bind hrest

/-- The line that names a configuration file, as it is printed. -/
def namingLine (r : Run) (path : Path) : Except Failure String :=
  if !path.isAbsolute && Store.isRemoved r.store.current then .error (.system .noEntry none none)
  else
    let line := "  Config file: " ++ (Path.below ⟨.top, r.store.current⟩ path).text
    match if r.onTerminal then some line else Terminal.plain? line with
    | some line => .ok line
    | none => .error .windowTitle

theorem run_printLine (text : String) (r : Run) :
    (printLine text).run r = match if r.onTerminal then some text else Terminal.plain? text with
      | some shown => (.ok (), printed r (shown ++ "\n"))
      | none => (.error .windowTitle, r) := by
  unfold printLine
  rw [run_bind, run_get]
  dsimp only
  cases (if r.onTerminal then some text else Terminal.plain? text : Option String) with
  | none => rfl
  | some shown => simp [printed, String.append_assoc]

theorem run_currentDirectory (r : Run) :
    Executor.currentDirectory.run r = if Store.isRemoved r.store.current then
      (.error (.system .noEntry none none), r) else (.ok ⟨.top, r.store.current⟩, r) := by
  unfold Executor.currentDirectory StoreAction.currentDirectory
  rw [run_bind, run_onStore, run_bind, run_get]
  by_cases hremoved : Store.isRemoved r.store.current <;> simp [hremoved]

theorem run_absoluteText (r : Run) :
    (absoluteText path).run r =
      if !path.isAbsolute && Store.isRemoved r.store.current then
        (.error (.system .noEntry none none), r)
      else (.ok (Path.below ⟨.top, r.store.current⟩ path).text, r) := by
  unfold absoluteText
  cases habsolute : path.isAbsolute with
  | true =>
    have hbelow : Path.below ⟨.top, r.store.current⟩ path = path := if_pos habsolute
    rw [hbelow]
    rfl
  | false =>
    change (Executor.currentDirectory >>= fun directory ↦ pure (Path.below directory path).text :
      RunAction String).run r = _
    rw [run_bind, run_currentDirectory]
    by_cases hremoved : Store.isRemoved r.store.current <;> simp [hremoved]

theorem run_naming (r : Run) :
    (absoluteText path >>= fun text ↦ printLine ("  Config file: " ++ text)).run r =
      match namingLine r path with
      | .error f => (.error f, r)
      | .ok line => (.ok (), printed r (line ++ "\n")) := by
  unfold namingLine
  rw [run_bind, run_absoluteText]
  by_cases hmissing : !path.isAbsolute && Store.isRemoved r.store.current
  · simp only [hmissing, if_true]
  · simp only [hmissing, if_false, Bool.false_eq_true]
    rw [run_printLine]
    cases (if r.onTerminal then some _ else Terminal.plain? _ : Option String) <;> rfl

/-- A file can be named by an absolute path without ESC. -/
theorem namingLine_of_escapeless (r : Run) (habsolute : path.isAbsolute) (h : Text.Escapeless path.text) :
    namingLine r path = .ok ("  Config file: " ++ path.text) := by
  have hbelow : Path.below ⟨.top, r.store.current⟩ path = path := if_pos habsolute
  have hline : Text.Escapeless ("  Config file: " ++ path.text) := Text.escapeless_append.mpr ⟨by decide, h⟩
  unfold namingLine
  simp [habsolute, hbelow, Terminal.plain_of_escapeless hline]

/-- What is printed about a configuration file comes to an end if the file can be named. -/
theorem run_printAbout {heading : String} {lines : List String} (hheading : Text.Escapeless heading)
    (hlines : ∀ line ∈ lines, Text.Escapeless line) (r : Run) :
    (printAbout path heading lines).run r = match namingLine r path with
      | .error f => (.error f, printed r ("\n" ++ heading ++ "\n"))
      | .ok line => (.ok (), printed r ("\n" ++ heading ++ "\n" ++ line ++ "\n" ++
        String.join (lines.map (· ++ "\n")))) := by
  have hfirst : Prints (printLine ("\n" ++ heading)) _ :=
    prints_line (Text.escapeless_append.mpr ⟨by decide, hheading⟩)
  have hrest : Prints (lines.forM printLine) (String.join (lines.map (· ++ "\n"))) :=
    prints_forM fun line hline ↦ prints_line (hlines line hline)
  have hsplit : printAbout path heading lines = (do
      printLine ("\n" ++ heading)
      absoluteText path >>= fun text ↦ printLine ("  Config file: " ++ text)
      lines.forM printLine) := by
    unfold printAbout
    simp only [bind_assoc]
  rw [hsplit, run_bind, hfirst r]
  dsimp only
  have hnaming : namingLine (printed r ("\n" ++ heading ++ "\n")) path = namingLine r path := rfl
  rw [run_bind, run_naming, hnaming]
  cases namingLine r path with
  | error f => rfl
  | ok line =>
    dsimp only
    rw [hrest]
    simp [String.append_assoc]

/-! ## What a file holds -/

/-- What is found where a configuration file may be. -/
inductive Held
  | nothing
  /-- Whether something is there cannot be said. -/
  | unanswered (f : Failure)
  | unreadable (e : SystemError)
  | undecodable (place : Utf8.Malformed)
  | text (chars : List Char)

/-- What is found at a path. -/
def held (s : Store) (path : Path) : Held :=
  match s.exists? path with
  | .error f => .unanswered f
  | .ok false => .nothing
  | .ok true =>
    match s.read path with
    | .error e => .unreadable e
    | .ok bytes =>
      match Utf8.decode bytes with
      | .error place => .undecodable place
      | .ok chars => .text (Text.unifyLineEnds chars)

/-- A path leads to a file with an object. -/
def Holds (s : Store) (path : Path) (fields : List (String × Json)) : Prop :=
  ∃ chars, held s path = .text chars ∧ Json.parse chars = .ok (.obj fields)

/-- A path leads to something from which no settings come, which is printed. -/
inductive Reported (s : Store) (path : Path) : Prop
  | unreadable {e : SystemError} (h : held s path = .unreadable e)
  | malformed {chars : List Char} {place : Json.Misplaced} (h : held s path = .text chars)
      (hparse : Json.parse chars = .error (.misplaced place))
  | noObject {chars : List Char} {value : Json} (h : held s path = .text chars)
      (hparse : Json.parse chars = .ok value) (hvalue : ∀ fields, value ≠ .obj fields)
  | refused {fields : List (String × Json)} (h : Holds s path fields) (hrefused : ¬ Acceptable fields)

/-- A path leads to something that cannot be dealt with. -/
inductive Stops (s : Store) (path : Path) : Failure → Prop
  | unanswered {f : Failure} (h : held s path = .unanswered f) : Stops s path f
  | undecodable {place : Utf8.Malformed} (h : held s path = .undecodable place) :
      Stops s path (.undecodable place)
  | tooDeep {chars : List Char} {nest : Json.Nest} (h : held s path = .text chars)
      (hparse : Json.parse chars = .error (.tooDeep nest)) : Stops s path (.tooDeep nest)
  | tooManyDigits {chars : List Char} {count : ℕ} (h : held s path = .text chars)
      (hparse : Json.parse chars = .error (.tooManyDigits count)) : Stops s path (.tooManyDigits count)

theorem Holds.orderly {s : Store} (h : Holds s path fields) : Json.Orderly fields :=
  have ⟨_, _, hparse⟩ := h
  Json.orderly_parse hparse

theorem Holds.unique {s : Store} {other : List (String × Json)} (h : Holds s path fields)
    (h' : Holds s path other) : fields = other := by
  obtain ⟨chars, hheld, hparse⟩ := h
  obtain ⟨chars', hheld', hparse'⟩ := h'
  cases hheld.symm.trans hheld'
  cases hparse.symm.trans hparse'
  rfl

theorem held_cases (s : Store) (path : Path) :
    (∃ f, Stops s path f) ∨ held s path = .nothing ∨ (∃ fields, Holds s path fields ∧ Acceptable fields) ∨
      Reported s path := by
  cases hheld : held s path with
  | nothing => exact .inr (.inl rfl)
  | unanswered f => exact .inl ⟨f, .unanswered hheld⟩
  | unreadable e => exact .inr (.inr (.inr (.unreadable hheld)))
  | undecodable place => exact .inl ⟨_, .undecodable hheld⟩
  | text chars =>
    rcases hparse : Json.parse chars with (place | nest | count) | value
    · exact .inr (.inr (.inr (.malformed hheld hparse)))
    · exact .inl ⟨_, .tooDeep hheld hparse⟩
    · exact .inl ⟨_, .tooManyDigits hheld hparse⟩
    · by_cases hobject : ∃ fields, value = .obj fields
      · obtain ⟨fields, rfl⟩ := hobject
        have hholds : Holds s path fields := ⟨chars, hheld, hparse⟩
        by_cases hacceptable : Acceptable fields
        · exact .inr (.inr (.inl ⟨fields, hholds, hacceptable⟩))
        · exact .inr (.inr (.inr (.refused hholds hacceptable)))
      · exact .inr (.inr (.inr (.noObject hheld hparse (not_exists.mp hobject))))

/-! ## Loading -/

/-- What becomes of the settings with what is found. -/
def settle (path : Path) : Held → RunAction Config
  | .nothing => return default
  | .unanswered f => throw f
  | .unreadable e => do
    printAbout path "ERROR: Could not load config file"
      ["  Problem: " ++ (Failure.ofPath e path).message, "", "Using default configuration."]
    return default
  | .undecodable place => throw (.undecodable place)
  | .text chars => ofText path chars

theorem hasNul_of_exists {s : Store} (h : s.exists? path = .ok true) : path.hasNul = false := by
  by_contra hnul
  unfold Store.exists? at h
  rw [Executor.entryAt_of_hasNul (by simpa using hnul)] at h
  cases h

theorem run_read (h : path.hasNul = false) (r : Run) :
    (onStore (StoreAction.read path)).run r = match r.store.read path with
      | .ok bytes => (.ok bytes, r)
      | .error e => (.error (.ofPath e path), r) := by
  rw [run_onStore]
  unfold StoreAction.read
  rw [h]
  simp only [Bool.false_eq_true, if_false]
  rw [run_bind, run_get]
  dsimp only
  cases r.store.read path <;> rfl

theorem run_load (path : Path) (r : Run) :
    (load (some path)).run r = (settle path (held r.store path)).run r := by
  unfold load held
  dsimp only
  rw [run_bind, run_ask]
  rcases hthere : r.store.exists? path with f | there
  · rfl
  cases there with
  | false => rfl
  | true =>
    have hread := run_read (hasNul_of_exists hthere) r
    simp only [Bool.not_true, Bool.false_eq_true, if_false]
    rw [run_bind]
    unfold content?
    rw [run_tryCatch, run_bind, hread]
    rcases r.store.read path with e | bytes
    · have hsystem : (Failure.ofPath e path).isSystem = true := rfl
      simp only [hsystem, Bool.not_true, Bool.false_eq_true, if_false, settle]
      rw [run_bind, run_bind]
      rcases (printAbout path _ _).run r with ⟨f | ⟨⟩, r'⟩ <;> rfl
    · dsimp only [run_pure]
      cases Utf8.decode bytes <;> rfl

/-- A run that ends with the failure to name the file, or goes on with the defaults. -/
def Defaults (r : Run) (path : Path) (outcome : Except Failure Config × Run) : Prop :=
  match namingLine r path with
  | .error f => outcome.1 = .error f
  | .ok _ => outcome.1 = .ok default

theorem defaults_of_printAbout {heading : String} {lines : List String} {next : RunAction Config}
    (hheading : Text.Escapeless heading) (hlines : ∀ line ∈ lines, Text.Escapeless line)
    (hnext : ∀ t, (next.run t).1 = .ok default) (r : Run) :
    Defaults r path ((printAbout path heading lines >>= fun _ ↦ next).run r) := by
  unfold Defaults
  rw [run_bind, run_printAbout hheading hlines]
  cases namingLine r path with
  | error f => rfl
  | ok line => exact hnext _

/-- The complaints about a file and the defaults after them. -/
theorem run_ofFields_of_refused (h : Json.Orderly fields) (hrefused : ¬ Acceptable fields) (r : Run) :
    (ofFields path fields).run r = match namingLine r path with
      | .error f => (.error f, printed r "\nConfiguration validation failed:\n")
      | .ok line => (.ok default, { printed r ("\nConfiguration validation failed:\n" ++ line ++ "\n\n" ++
          String.join ((complaints fields).map (· ++ "\n\n")) ++
          "Using default configuration instead.\n") with
        log := r.log ++ [⟨.warning, "Invalid config " ++ path.text ++ ": " ++
          (complaints fields).length.repr ++ " error(s)"⟩] }) := by
  have hfound := mt (complaints_eq_nil_iff h).mp hrefused
  have hescapeless := (exists_refused h forall_checks).2
  rw [← complaints_eq] at hescapeless
  have heach : Prints ((complaints fields).forM fun complaint ↦ do
      printLine complaint
      printLine "") (String.join ((complaints fields).map (· ++ "\n\n"))) := by
    refine prints_forM fun complaint hmem ↦ ?_
    have hempty : Prints (printLine "") "\n" := prints_line (by decide)
    have hboth := (prints_line (hescapeless complaint hmem)).bind hempty
    rwa [String.append_assoc] at hboth
  have hlast : Prints (printLine "Using default configuration instead.")
      "Using default configuration instead.\n" := prints_line (by decide)
  unfold ofFields
  split
  · next hnone => exact absurd hnone hfound
  rw [run_bind, run_printAbout (by decide) (by decide)]
  cases namingLine r path with
  | error f => rfl
  | ok line =>
    dsimp only
    rw [run_bind, heach]
    dsimp only
    rw [run_bind, hlast]
    have hheading : "\n" ++ "Configuration validation failed:" ++ "\n" =
        "\nConfiguration validation failed:\n" := by decide
    have hempty : String.join ([""].map (· ++ "\n")) = "\n" := by decide
    have hend : "\n\n" = "\n" ++ "\n" := by decide
    rw [printed_printed, printed_printed, hheading, hempty]
    simp only [String.append_assoc, hend]
    rfl

theorem run_load_of_holds (h : Holds r.store path fields) :
    (load (some path)).run r = (ofFields path fields).run r := by
  obtain ⟨chars, hheld, hparse⟩ := h
  rw [run_load, hheld, settle, ofText, hparse]

theorem escapeless_message (e : SystemError) (path : Path) :
    Text.Escapeless (Failure.ofPath e path).message := by
  have htext : Text.Escapeless e.text := by cases e <;> decide
  unfold Failure.ofPath Failure.message
  simp +decide [htext, Text.escapeless_repr, Text.escapeless_literal]

theorem escapeless_misplaced (m : Json.Misplaced) : Text.Escapeless m.text := by
  have htext : Text.Escapeless m.kind.text := by cases m.kind <;> decide
  unfold Json.Misplaced.text
  simp +decide [htext, Text.escapeless_repr]

/-- What is found but not taken up is reported, and the defaults stay. -/
theorem defaults_of_reported (h : Reported r.store path) :
    Defaults r path ((load (some path)).run r) := by
  have hdefault (t : Run) : ((return default : RunAction Config).run t).1 = .ok default := rfl
  cases h with
  | unreadable h =>
    rw [run_load, h]
    refine defaults_of_printAbout (by decide) ?_ hdefault r
    simp +decide [escapeless_message]
  | malformed h hparse =>
    rw [run_load, h, settle, ofText, hparse]
    refine defaults_of_printAbout (by decide) ?_ hdefault r
    simp +decide [escapeless_misplaced, Text.escapeless_repr]
  | @noObject chars value h hparse hvalue =>
    have hreport : Defaults r path ((do
        printAbout path "ERROR: Config file must contain a JSON object" ["Using default configuration."]
        return default : RunAction Config).run r) :=
      defaults_of_printAbout (by decide) (by decide) hdefault r
    rw [run_load, h, settle, ofText, hparse]
    cases value with
    | obj fields => exact absurd rfl (hvalue fields)
    | _ => exact hreport
  | refused h hrefused =>
    rw [run_load_of_holds h, run_ofFields_of_refused h.orderly hrefused]
    unfold Defaults
    cases namingLine r path <;> rfl

theorem run_load_of_stops {f : Failure} (h : Stops r.store path f) :
    (load (some path)).run r = (.error f, r) := by
  rw [run_load]
  cases h with
  | unanswered h => rw [h]; rfl
  | undecodable h => rw [h]; rfl
  | tooDeep h hparse => rw [h, settle, ofText, hparse]; rfl
  | tooManyDigits h hparse => rw [h, settle, ofText, hparse]; rfl

theorem run_load_of_nothing (h : held r.store path = .nothing) :
    (load (some path)).run r = (.ok default, r) := by
  rw [run_load, h]
  rfl

theorem run_load_of_acceptable (h : Holds r.store path fields) (hfields : Acceptable fields) :
    (load (some path)).run r = (.ok (default.overlay fields), r) := by
  have hnone := (complaints_eq_nil_iff h.orderly).mpr hfields
  rw [run_load_of_holds h]
  unfold ofFields
  rw [hnone]
  rfl

theorem not_acceptable_of_reported {s : Store} (h : Reported s path) (hholds : Holds s path fields) :
    ¬ Acceptable fields := by
  cases h with
  | unreadable h =>
    obtain ⟨chars, hheld, -⟩ := hholds
    cases h.symm.trans hheld
  | malformed h hparse =>
    obtain ⟨chars, hheld, hobject⟩ := hholds
    cases h.symm.trans hheld
    cases hparse.symm.trans hobject
  | noObject h hparse hvalue =>
    obtain ⟨chars, hheld, hobject⟩ := hholds
    cases h.symm.trans hheld
    cases hparse.symm.trans hobject
    exact absurd rfl (hvalue fields)
  | refused h hrefused => exact h.unique hholds ▸ hrefused

/-- An object that a file holds is taken up as a whole or not at all. -/
theorem load_cases {path? : Option Path} (h : (load path?).run r = (.ok config, r')) :
    (∃ path fields, path? = some path ∧ Holds r.store path fields ∧ Acceptable fields ∧
      config = default.overlay fields ∧ r' = r) ∨
    (∀ path fields, path? = some path → Holds r.store path fields → ¬ Acceptable fields) ∧
      config = default := by
  cases path? with
  | none =>
    cases h
    exact .inr ⟨nofun, rfl⟩
  | some path =>
    obtain ⟨f, hstops⟩ | hnothing | ⟨fields, hholds, hfields⟩ | hreported := held_cases r.store path
    · cases (run_load_of_stops hstops).symm.trans h
    · cases (run_load_of_nothing hnothing).symm.trans h
      refine .inr ⟨?_, rfl⟩
      rintro _ fields ⟨⟩ ⟨chars, hheld, -⟩
      cases hnothing.symm.trans hheld
    · cases (run_load_of_acceptable hholds hfields).symm.trans h
      exact .inl ⟨path, fields, rfl, hholds, hfields, rfl, rfl⟩
    · refine .inr ⟨?_, ?_⟩
      · rintro _ fields ⟨⟩ hholds
        exact not_acceptable_of_reported hreported hholds
      · have hdefaults := defaults_of_reported hreported
        unfold Defaults at hdefaults
        rw [h] at hdefaults
        split at hdefaults
        · cases hdefaults
        · exact Except.ok.inj hdefaults

/-- Settings are the defaults, or the defaults under the fields of an object that a file holds; the
latter if and only if the known settings in it have values that they may have. In either case this is
so of the settings, and the instruction file is known if and only if its base path is. For an object
that is not taken up there is one complaint for each known setting with another value. -/
theorem accepts_of_load {path? : Option Path} (h : (load path?).run r = (.ok config, r')) :
    let Given fields := ∃ path, path? = some path ∧ Holds r.store path fields
    (∀ setting ∈ known, setting.Accepts (config.get setting.name)) ∧
    (∃ file?, config.instructionsFile = .ok file? ∧ (file? = none ↔ config.get "base_path" = .null)) ∧
    ((∃ fields, Given fields ∧ Acceptable fields ∧ r' = r ∧ ∀ name, Json.field? config.settings name =
        (Json.field? fields name).or (Json.field? default.settings name)) ∨
      (∀ fields, Given fields → ¬ Acceptable fields) ∧ config = default) ∧
    ∀ fields, Given fields → ¬ Acceptable fields → ∃ (line : String) (refused : List Known) (blocks : List String),
      r'.output = r.output ++ "\nConfiguration validation failed:\n" ++ line ++ "\n\n" ++
        String.join (blocks.map (· ++ "\n\n")) ++ "Using default configuration instead.\n" ∧
      refused.Sublist known ∧
      (∀ setting, setting ∈ refused ↔ setting ∈ known ∧ Refused fields setting) ∧
      List.Forall₂ (fun (setting : Known) block ↦ setting.name.toList <:+: block.toList) refused blocks := by
  intro Given
  have haccepts : ∀ setting ∈ known, setting.Accepts (config.get setting.name) := by
    obtain ⟨path, fields, -, hholds, hfields, rfl, -⟩ | ⟨-, rfl⟩ := load_cases h
    · exact accepts_overlay hholds.orderly.nodup hfields
    · exact accepts_default
  refine ⟨haccepts, ?_, ?_, ?_⟩
  · have hbase : (⟨"base_path", PathOrNull⟩ : Known) ∈ known := .tail _ (.tail _ (.head _))
    have hsuffix : (⟨"instructions_suffix", Suffix⟩ : Known) ∈ known :=
      .tail _ (.tail _ (.tail _ (.tail _ (.tail _ (.head _)))))
    exact exists_instructionsFile (haccepts _ hbase) (haccepts _ hsuffix)
  · obtain ⟨path, fields, hpath, hholds, hfields, rfl, rfl⟩ | ⟨hnone, rfl⟩ := load_cases h
    · exact .inl ⟨fields, ⟨path, hpath, hholds⟩, hfields, rfl,
        field_overlay default hholds.orderly.nodup⟩
    · refine .inr ⟨?_, rfl⟩
      rintro fields ⟨path, hpath, hholds⟩
      exact hnone path fields hpath hholds
  · rintro fields ⟨path, rfl, hholds⟩ hrefused
    obtain ⟨⟨refused, hsub, hmem, hblocks⟩, -⟩ := exists_refused hholds.orderly forall_checks
    rw [← complaints_eq] at hblocks
    rw [run_load_of_holds hholds, run_ofFields_of_refused hholds.orderly hrefused] at h
    split at h
    · cases h
    · next line hline =>
      cases h
      refine ⟨line, refused, complaints fields, ?_, hsub, hmem, hblocks⟩
      simp [printed, String.append_assoc]

/-- Nothing is taken up from a file that gives a truth value as a number, beside another field. -/
theorem accepts_of_load_truth_value :
    let s := Store.empty.putFile ["c"] (Utf8.encodeString "\x7b\"x\": 1, \"max_log_files\": true\x7d")
    let limit : Known := ⟨"max_log_files", Whole 1 100⟩
    let after := (load (some ⟨.top, ["c"]⟩)).run (Run.first s)
    after = (.ok default, after.2) ∧ limit.Accepts (default.get limit.name) ∧
      ∃ (line : String) (refused : List Known) (blocks : List String), limit ∈ refused ∧
        blocks.length = refused.length ∧
        after.2.output = "\nConfiguration validation failed:\n" ++ line ++ "\n\n" ++
          String.join (blocks.map (· ++ "\n\n")) ++ "Using default configuration instead.\n" := by
  intro s limit after
  let fields : List (String × Json) := [("x", .int 1), ("max_log_files", .bool true)]
  have hheld : held s ⟨.top, ["c"]⟩ = .text "\x7b\"x\": 1, \"max_log_files\": true\x7d".toList := by
    have hexists : s.exists? ⟨.top, ["c"]⟩ = .ok true := rfl
    have hread : s.read ⟨.top, ["c"]⟩ =
        .ok (Utf8.encode "\x7b\"x\": 1, \"max_log_files\": true\x7d".toList) := rfl
    simp only [held, hexists, hread, Utf8.decode_encode]
    rfl
  have hparse : Json.parse "\x7b\"x\": 1, \"max_log_files\": true\x7d".toList = .ok (.obj fields) := by
    have hform : "\x7b\"x\": 1, \"max_log_files\": true\x7d".toList = Json.printChars (.obj fields) := rfl
    rw [Json.parse, hform]
    exact Json.parseWithin_printChars (.obj (by decide) (by simpa [fields] using ⟨.int (by decide), .bool true⟩))
      (by decide)
  have hholds : Holds (Run.first s).store ⟨.top, ["c"]⟩ fields := ⟨_, hheld, hparse⟩
  have hlimit : limit ∈ known := .head _
  have hrefused : Refused fields limit := ⟨.bool true, rfl, nofun⟩
  have hunacceptable : ¬ Acceptable fields := fun h ↦ h limit hlimit hrefused
  have hname := namingLine_of_escapeless (Run.first s) (show Path.isAbsolute ⟨.top, ["c"]⟩ by decide)
    (by decide)
  have hload : after = (.ok default, after.2) := by
    change (load (some ⟨.top, ["c"]⟩)).run (Run.first s) = (_, ((load (some ⟨.top, ["c"]⟩)).run (Run.first s)).2)
    rw [run_load_of_holds hholds, run_ofFields_of_refused hholds.orderly hunacceptable, hname]
  obtain ⟨haccepts, -, -, hcomplaints⟩ := accepts_of_load hload
  obtain ⟨line, refused, blocks, houtput, -, hmem, hblocks⟩ :=
    hcomplaints fields ⟨_, rfl, hholds⟩ hunacceptable
  refine ⟨hload, haccepts limit hlimit, line, refused, blocks, (hmem limit).mpr ⟨hlimit, hrefused⟩,
    hblocks.length_eq.symm, ?_⟩
  simpa [Run.first] using houtput

/-- Reading settings ends with a failure if and only if something is found that is not dealt with, or
why nothing was taken up cannot be printed because the file cannot be named. Else there are settings, and
they are the defaults unless a file holds an object whose known settings have values that they may have. -/
theorem load_fails_iff (path? : Option Path) (r : Run) :
    (∀ f, ((load path?).run r).1 = .error f ↔ ∃ path, path? = some path ∧
      (Stops r.store path f ∨ Reported r.store path ∧ namingLine r path = .error f)) ∧
    ((∀ path fields, path? = some path → Holds r.store path fields → ¬ Acceptable fields) →
      ∀ config, ((load path?).run r).1 = .ok config → config = default) := by
  refine ⟨fun f ↦ ⟨fun h ↦ ?_, ?_⟩, fun hnone config h ↦ ?_⟩
  · cases path? with
    | none => cases h
    | some path =>
      refine ⟨path, rfl, ?_⟩
      obtain ⟨g, hstops⟩ | hnothing | ⟨fields, hholds, hfields⟩ | hreported := held_cases r.store path
      · rw [run_load_of_stops hstops] at h
        cases h
        exact .inl hstops
      · rw [run_load_of_nothing hnothing] at h
        cases h
      · rw [run_load_of_acceptable hholds hfields] at h
        cases h
      · refine .inr ⟨hreported, ?_⟩
        have hdefaults := defaults_of_reported hreported
        unfold Defaults at hdefaults
        rw [h] at hdefaults
        split at hdefaults
        · next g hname =>
          cases hdefaults
          exact hname
        · cases hdefaults
  · rintro ⟨path, rfl, hstops | ⟨hreported, hname⟩⟩
    · rw [run_load_of_stops hstops]
    · have hdefaults := defaults_of_reported hreported
      unfold Defaults at hdefaults
      rwa [hname] at hdefaults
  · obtain ⟨path, fields, hpath, hholds, hfields, -, -⟩ | ⟨-, hconfig⟩ := load_cases (run_of_ok h)
    · exact absurd hfields (hnone path fields hpath hholds)
    · exact hconfig

/-- A single byte that starts no character ends the reading of settings. -/
theorem load_fails_of_ill_formed_byte :
    let s := Store.empty.putFile ["c"] [0xFF]
    ((load (some ⟨.top, ["c"]⟩)).run (Run.first s)).1 =
      .error (.undecodable ⟨0, [0xFF], .start⟩) := by
  intro s
  have hheld : held s ⟨.top, ["c"]⟩ = .undecodable ⟨0, [0xFF], .start⟩ := by
    have hexists : s.exists? ⟨.top, ["c"]⟩ = .ok true := rfl
    have hread : s.read ⟨.top, ["c"]⟩ = .ok [0xFF] := rfl
    have hdecode : Utf8.decode [0xFF] = .error ⟨0, [0xFF], .start⟩ := by
      simp [Utf8.decode, Utf8.pieces, Utf8.step, Utf8.lead?, Utf8.textOfPieces]
    simp only [held, hexists, hread, hdecode]
  exact ((load_fails_iff (some ⟨.top, ["c"]⟩) (Run.first s)).1 _).mpr ⟨_, rfl, .inl (.undecodable hheld)⟩

end Config

end DeferredOps
