import DeferredOps.Config
import DeferredOps.Proofs.Json.Reader
import DeferredOps.Proofs.Text.Literal
import Mathlib.Data.List.Forall2

/-!
# Settings

Each known setting has values that it may have. There is one complaint for each known setting that a
file gives another value. Without a complaint the fields of the file are laid over the defaults, and the
known settings then have values that they may have, as the defaults do.
-/

namespace DeferredOps

namespace Config

variable {config : Config} {fields : List (String × Json)} {value : Json}

/-! ## What is acceptable -/

/-- A character, or half of a surrogate pair, that is not blank. -/
def Visible : StringPart → Prop
  | .char c => Text.isBlank c = false
  | .half _ => True

/-- The parts of a string. -/
def parts? : Json → Option (List StringPart)
  | .str s => some (s.toList.map .char)
  | .broken parts => some parts
  | _ => none

/-- A whole number in a range. -/
def Whole (least greatest : Int) (value : Json) : Prop :=
  ∃ n, value = .int n ∧ least ≤ n ∧ n ≤ greatest

/-- Null, or a string with something visible in it. -/
def PathOrNull (value : Json) : Prop :=
  value = .null ∨ ∃ parts, parts? value = some parts ∧ ∃ part ∈ parts, Visible part

/-- A string that starts with a point and has more to it. -/
def Suffix (value : Json) : Prop :=
  ∃ part rest, parts? value = some (.char '.' :: part :: rest)

/-- A string. -/
def AnyString (value : Json) : Prop :=
  ∃ parts, parts? value = some parts

/-- A setting that is known, with the values that it may have. -/
structure Known where
  name : String
  Accepts : Json → Prop

/-- The settings that are known. -/
def known : List Known :=
  [⟨"max_log_files", Whole 1 100⟩, ⟨"wait_timeout_seconds", Whole 0 3600⟩, ⟨"base_path", PathOrNull⟩,
    ⟨"working_directory", PathOrNull⟩, ⟨"event_log", PathOrNull⟩, ⟨"instructions_suffix", Suffix⟩,
    ⟨"log_folder", AnyString⟩]

/-- A known setting that is given a value that it may not have. -/
def Refused (fields : List (String × Json)) (setting : Known) : Prop :=
  ∃ value, Json.field? fields setting.name = some value ∧ ¬ setting.Accepts value

/-- Fields whose known settings have values that they may have. -/
def Acceptable (fields : List (String × Json)) : Prop :=
  ∀ setting ∈ known, ¬ Refused fields setting

/-! ## Rules -/

/-- A rule for a known setting: it has nothing to say about the values that the setting may have, and
what it says about another one names the setting and has nothing in it that a terminal would obey. -/
structure Checks (setting : Known) (rule : String × (Json → Option String)) : Prop where
  name : rule.1 = setting.name
  accepts : ∀ value : Json, value.Justified → (rule.2 value = none ↔ setting.Accepts value)
  complains : ∀ value complaint, rule.2 value = some complaint →
    Text.Escapeless complaint ∧ setting.name.toList <:+: complaint.toList

/-- The rules for the known settings. -/
def rules : List (String × (Json → Option String)) :=
  numberRules.map (fun rule ↦ (rule.name, rule.complaint?)) ++
    pathRules.map (fun (name, sample) ↦ (name, pathComplaint? name sample)) ++
    [("instructions_suffix", suffixComplaint?), ("log_folder", folderComplaint?)]

theorem complaints_eq (fields : List (String × Json)) : complaints fields =
    rules.flatMap fun rule ↦ ((Json.field? fields rule.1).bind rule.2).toList := by
  simp [complaints, rules, List.flatMap_append, List.flatMap_map]

theorem infix_intercalate {separator text : String} {texts : List String} (h : text ∈ texts) :
    text.toList <:+: (separator.intercalate texts).toList := by
  induction texts with
  | nil => cases h
  | cons first rest ih =>
    cases rest with
    | nil => simp [List.mem_singleton.mp h]
    | cons second more =>
      rw [String.intercalate_cons_cons, String.toList_append, String.toList_append, List.append_assoc]
      rcases List.mem_cons.mp h with rfl | h
      · exact (List.prefix_append _ _).isInfix
      · exact (ih h).trans ((List.suffix_append _ _).trans (List.suffix_append _ _)).isInfix

/-- A description with a line that ends with the name of the setting. -/
theorem named_describe {name line : String} {lines : List String} (h : line ∈ lines)
    (hname : name.toList <:+ line.toList) : name.toList <:+: (describe lines).toList :=
  hname.isInfix.trans (infix_intercalate (List.mem_cons_of_mem _ h))

theorem suffix_append (before name : String) : name.toList <:+ (before ++ name).toList := by
  rw [String.toList_append]
  exact List.suffix_append _ _

theorem escapeless_describe {lines : List String} (h : ∀ line ∈ lines, Text.Escapeless line) :
    Text.Escapeless (describe lines) := by
  refine Text.escapeless_intercalate (by decide) fun line hline ↦ ?_
  rcases List.mem_cons.mp hline with rfl | hline
  · decide
  · exact h line hline

theorem checks_number (rule : NumberRule) (hname : Text.Escapeless rule.name) :
    Checks ⟨rule.name, Whole rule.least rule.greatest⟩ (rule.name, rule.complaint?) where
  name := rfl
  accepts value _ := by
    dsimp only
    unfold NumberRule.complaint?
    split
    · next n => simp [Whole]
    · next hno =>
      refine iff_of_false nofun ?_
      rintro ⟨n, rfl, -⟩
      exact hno n rfl
  complains value complaint h := by
    dsimp only at h
    unfold NumberRule.complaint? at h
    split at h
    · split at h
      · cases h
      cases h
      refine ⟨escapeless_describe ?_, named_describe List.mem_cons_self (suffix_append _ _)⟩
      simp +decide [hname, Json.escapeless_intText]
    · cases h
      refine ⟨escapeless_describe ?_, named_describe List.mem_cons_self (suffix_append _ _)⟩
      simp +decide [hname, Json.escapeless_intText, Json.escapeless_literal, Json.escapeless_kindName]

theorem checks_path (name sample : String) (hname : Text.Escapeless name) :
    Checks ⟨name, PathOrNull⟩ (name, pathComplaint? name sample) where
  name := rfl
  accepts value hvalue := by
    dsimp only
    unfold pathComplaint?
    split
    · simp [PathOrNull]
    next hnull =>
    have htext : isPathText value = true ↔ ∃ parts, parts? value = some parts ∧ ∃ part ∈ parts, Visible part := by
      cases value with
      | str s => simp [isPathText, parts?, Text.isBlankText, Visible]
      | broken parts =>
        obtain ⟨unit, hunit⟩ := hvalue parts rfl
        exact iff_of_true rfl ⟨parts, rfl, .half unit, hunit, trivial⟩
      | _ => simp [isPathText, parts?]
    have hgiven : value ≠ .null := hnull
    simp [PathOrNull, htext, hgiven]
  complains value complaint h := by
    dsimp only at h
    unfold pathComplaint? at h
    split at h
    · cases h
    split at h
    · cases h
    cases h
    refine ⟨escapeless_describe ?_, named_describe List.mem_cons_self (suffix_append _ _)⟩
    simp +decide [hname, Json.escapeless_literal, Text.escapeless_literal]

theorem isSuffix_iff_of_text {value : Json} {text : String} (h : value.text? = some text) :
    isSuffix value = true ↔ ∃ c rest, text.toList = '.' :: c :: rest := by
  unfold isSuffix
  rw [h]
  split
  · next c rest heq => exact iff_of_true rfl ⟨c, rest, Option.some.inj heq⟩
  · next hno =>
    refine iff_of_false (by simp) ?_
    rintro ⟨c, rest, htext⟩
    exact hno c rest (congrArg some htext)

theorem isSuffix_iff (value : Json) : isSuffix value = true ↔ Suffix value := by
  have hpoint (part : StringPart) : part.replaced = '.' ↔ part = .char '.' := by
    cases part <;> simp [StringPart.replaced]
  unfold Suffix
  cases value with
  | str s =>
    refine (isSuffix_iff_of_text rfl).trans ?_
    simp only [parts?, Option.some_inj, List.map_eq_cons_iff]
    constructor
    · rintro ⟨c, rest, hs⟩
      exact ⟨.char c, rest.map .char, '.', _, hs, rfl, c, rest, rfl, rfl, rfl⟩
    · rintro ⟨_, _, c, _, hs, hc, d, rest, rfl, -, -⟩
      cases hc
      exact ⟨d, rest, hs⟩
  | broken parts =>
    refine (isSuffix_iff_of_text rfl).trans ?_
    simp only [StringPart.textOf, String.toList_ofList, parts?, Option.some_inj, List.map_eq_cons_iff]
    constructor
    · rintro ⟨_, _, first, _, rfl, hfirst, second, rest, rfl, -, -⟩
      exact ⟨second, rest, by rw [(hpoint first).mp hfirst]⟩
    · rintro ⟨second, rest, rfl⟩
      exact ⟨_, _, _, _, rfl, rfl, _, _, rfl, rfl, rfl⟩
  | _ => simp [isSuffix, Json.text?, parts?]

theorem checks_suffix : Checks ⟨"instructions_suffix", Suffix⟩ ("instructions_suffix", suffixComplaint?) where
  name := rfl
  accepts value _ := by
    dsimp only
    unfold suffixComplaint?
    rw [← isSuffix_iff]
    split <;> simp_all
  complains value complaint h := by
    dsimp only at h
    unfold suffixComplaint? at h
    split at h
    · cases h
    cases h
    refine ⟨escapeless_describe ?_, named_describe List.mem_cons_self (by decide)⟩
    simp +decide [Json.escapeless_literal]

theorem checks_folder : Checks ⟨"log_folder", AnyString⟩ ("log_folder", folderComplaint?) where
  name := rfl
  accepts value _ := by
    cases value <;> simp [folderComplaint?, AnyString, parts?]
  complains value complaint h := by
    dsimp only at h
    unfold folderComplaint? at h
    split at h
    · cases h
    · cases h
    · cases h
      refine ⟨Text.escapeless_append.mpr ⟨by decide, Json.escapeless_kindName value⟩, ?_⟩
      rw [String.toList_append]
      exact ⟨[], _, rfl⟩

/-- There is a rule for each known setting, in the same order. -/
theorem forall_checks : List.Forall₂ Checks known rules := by
  have hnumbers : ∀ rule ∈ numberRules, Text.Escapeless rule.name := by decide
  have hpaths : ∀ rule ∈ pathRules, Text.Escapeless rule.1 := by decide
  refine .cons (checks_number _ (hnumbers _ (.head _))) (.cons (checks_number _ (hnumbers _ (.tail _ (.head _)))) ?_)
  refine .cons (checks_path _ _ (by decide)) (.cons (checks_path _ _ (by decide)) ?_)
  exact .cons (checks_path _ _ (by decide)) (.cons checks_suffix (.cons checks_folder .nil))

/-- There is one complaint for each known setting that has a value that it may not have. -/
theorem exists_refused (h : Json.Orderly fields) {settings : List Known}
    {rules : List (String × (Json → Option String))} (hrules : List.Forall₂ Checks settings rules) :
    let complaints := rules.flatMap fun rule ↦ ((Json.field? fields rule.1).bind rule.2).toList
    (∃ refused, refused.Sublist settings ∧
      (∀ setting, setting ∈ refused ↔ setting ∈ settings ∧ Refused fields setting) ∧
      List.Forall₂ (fun (setting : Known) complaint ↦ setting.name.toList <:+: complaint.toList)
        refused complaints) ∧
    ∀ complaint ∈ complaints, Text.Escapeless complaint := by
  induction hrules with
  | nil => exact ⟨⟨[], .refl _, by simp, .nil⟩, by simp⟩
  | @cons setting rule settings rules hcheck _ ih =>
    obtain ⟨⟨refused, hsub, hmem, hblocks⟩, hescapeless⟩ := ih
    dsimp only
    rw [List.flatMap_cons]
    cases hcomplaint : (Json.field? fields rule.1).bind rule.2 with
    | none =>
      have haccepted : ¬ Refused fields setting := by
        rintro ⟨value, hvalue, hrefused⟩
        rw [← hcheck.name] at hvalue
        rw [hvalue, Option.bind_some] at hcomplaint
        have hjustified := h.justified _ (Json.mem_of_field hvalue)
        exact hrefused ((hcheck.accepts value hjustified).mp hcomplaint)
      refine ⟨⟨refused, hsub.cons _, fun other ↦ ?_, hblocks⟩, hescapeless⟩
      rw [hmem, List.mem_cons, or_and_right]
      exact (or_iff_right fun (heq : other = setting ∧ _) ↦ haccepted (heq.1 ▸ heq.2)).symm
    | some complaint =>
      obtain ⟨value, hvalue, hcomplains⟩ := Option.bind_eq_some_iff.mp hcomplaint
      have hjustified := h.justified _ (Json.mem_of_field hvalue)
      have hrefused : Refused fields setting := by
        refine ⟨value, hcheck.name ▸ hvalue, fun haccepts ↦ ?_⟩
        rw [(hcheck.accepts value hjustified).mpr haccepts] at hcomplains
        cases hcomplains
      obtain ⟨hfirst, hnamed⟩ := hcheck.complains value complaint hcomplains
      refine ⟨⟨setting :: refused, hsub.cons_cons _, fun other ↦ ?_, .cons hnamed hblocks⟩, ?_⟩
      · rw [List.mem_cons, hmem, List.mem_cons, or_and_right]
        exact or_congr_left ⟨fun heq ↦ ⟨heq, heq ▸ hrefused⟩, And.left⟩
      · exact List.forall_mem_cons.mpr ⟨hfirst, hescapeless⟩

theorem complaints_eq_nil_iff (h : Json.Orderly fields) : complaints fields = [] ↔ Acceptable fields := by
  obtain ⟨⟨refused, -, hmem, hblocks⟩, -⟩ := exists_refused h forall_checks
  rw [← complaints_eq] at hblocks
  constructor
  · intro hnil setting hsetting hrefused
    rw [hnil, List.forall₂_nil_right_iff] at hblocks
    exact List.not_mem_nil (hblocks ▸ (hmem setting).mpr ⟨hsetting, hrefused⟩)
  · intro hacceptable
    have hnil : refused = [] := List.eq_nil_iff_forall_not_mem.mpr fun setting hsetting ↦
      hacceptable setting ((hmem setting).mp hsetting).1 ((hmem setting).mp hsetting).2
    rwa [hnil, List.forall₂_nil_left_iff] at hblocks

/-! ## The values of settings -/

theorem field_overlay (config : Config) (h : (fields.map (·.1)).Nodup) (name : String) :
    Json.field? (config.overlay fields).settings name =
      (Json.field? fields name).or (Json.field? config.settings name) := by
  induction fields generalizing config with
  | nil => rfl
  | cons field rest ih =>
    obtain ⟨first, value⟩ := field
    obtain ⟨hfirst, hrest⟩ := List.nodup_cons.mp h
    change Json.field? ((config.put first value).overlay rest).settings name = _
    rw [ih _ hrest, Json.field_cons, put, Json.field_setField]
    split
    · next heq =>
      rw [heq, Json.field_eq_none hfirst]
      rfl
    · rfl

theorem accepts_default : ∀ setting ∈ known, setting.Accepts (default.get setting.name) := by
  have hpath : PathOrNull .null := .inl rfl
  have hsuffix : Suffix (.str ".copies") := ⟨.char 'c', "opies".toList.map .char, rfl⟩
  have hfolder : AnyString (.str "logs") := ⟨_, rfl⟩
  have hwhole {least greatest n : Int} (h : least ≤ n ∧ n ≤ greatest) : Whole least greatest (.int n) :=
    ⟨n, rfl, h⟩
  simp only [known, List.forall_mem_cons]
  exact ⟨hwhole (by decide), hwhole (by decide), hpath, hpath, hpath, hsuffix, hfolder, by simp⟩

/-- Acceptable fields over the defaults give acceptable settings. -/
theorem accepts_overlay (h : (fields.map (·.1)).Nodup) (hfields : Acceptable fields) :
    ∀ setting ∈ known, setting.Accepts ((default.overlay fields).get setting.name) := by
  intro setting hsetting
  unfold get
  rw [field_overlay default h]
  cases hvalue : Json.field? fields setting.name with
  | none => exact accepts_default setting hsetting
  | some value => exact not_not.mp fun hrefused ↦ hfields setting hsetting ⟨value, hvalue, hrefused⟩

theorem exists_text {parts : List StringPart} (h : parts? value = some parts) :
    ∃ text, value.text? = some text := by
  cases value with
  | str s => exact ⟨s, rfl⟩
  | broken parts => exact ⟨_, rfl⟩
  | _ => cases h

theorem isGiven_of_parts {parts : List StringPart} (h : parts? value = some parts) (hne : parts ≠ []) :
    value.isGiven = true := by
  cases value with
  | str s =>
    cases h
    have hs : s ≠ "" := by
      rintro rfl
      exact hne rfl
    simpa [Json.isGiven] using hs
  | broken parts =>
    cases h
    simpa [Json.isGiven] using hne
  | _ => cases h

/-- The base path and the suffix of acceptable settings can be put together. -/
theorem exists_instructionsFile (hbase : PathOrNull (config.get "base_path"))
    (hsuffix : Suffix (config.get "instructions_suffix")) :
    ∃ file?, config.instructionsFile = .ok file? ∧ (file? = none ↔ config.get "base_path" = .null) := by
  unfold instructionsFile basePath
  rcases hbase with hnull | ⟨parts, hparts, part, hpart, -⟩
  · rw [hnull]
    exact ⟨none, rfl, by simp⟩
  · obtain ⟨baseText, hbaseText⟩ := exists_text hparts
    obtain ⟨second, rest, hsuffixParts⟩ := hsuffix
    obtain ⟨suffixText, hsuffixText⟩ := exists_text hsuffixParts
    have hgiven := isGiven_of_parts hparts (List.ne_nil_of_mem hpart)
    have hnull : config.get "base_path" ≠ .null := by
      intro hnull
      rw [hnull] at hparts
      cases hparts
    simp only [hgiven, hbaseText, hsuffixText]
    exact ⟨some (Path.ofString (baseText ++ suffixText)), rfl, by simp [hnull]⟩

end Config

end DeferredOps
