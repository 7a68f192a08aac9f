import DeferredOps.Proofs.ExecutorsInStep
import DeferredOps.Proofs.Relocations

/-!
# Where the working directory lies

Deletions and moves of what is named below the working directory do not depend on where that directory
lies and what it is called. Two executors that work in different directories with the same content do
the same, until a path below one of them is too long.
-/

namespace DeferredOps

open Action

/-- A directive deletes or moves something below the working directory. A source is named, for the
directory itself has a name of its own. -/
def Directive.IsInner : Directive → Prop
  | .delete target => Executor.IsInner target
  | .move source destination _ =>
    Executor.IsInner source ∧ Executor.IsInner destination ∧ (Path.ofString source).parts ≠ []
  | .comment _ | .execute _ => False

namespace Executor

open RunAction Store

/-- Do one directive after another, also after one that has failed. The results come with the state at
the end. -/
def performEach (x : Executor) : List Directive → Run → List (Except Failure Unit) × Run
  | [], r => ([], r)
  | directive :: rest, r =>
    let (result, r') := (x.perform directive).run r
    let (results, r'') := x.performEach rest r'
    (result :: results, r'')

variable {w w' : Path} {directive : Directive} {directives : List Directive} {r r' : Run}

theorem tied_perform (runner runner' : Option CommandRunner) (h : directive.IsInner) :
    Tied w w' (perform ⟨w, runner⟩ directive) (perform ⟨w', runner'⟩ directive) := by
  cases directive with
  | delete target => exact tied_delete runner runner' h
  | move source destination policy => exact tied_move runner runner' policy h.1 h.2.1 h.2.2
  | comment text | execute commandLine => exact h.elim

theorem hindered_performEach {x : Executor} (hkept : ∀ directive ∈ directives,
      Keeps Run.Hindered (fun _ ↦ True) (x.perform directive)) (hr : r.Hindered) :
    (x.performEach directives r).2.Hindered := by
  induction directives generalizing r with
  | nil => exact hr
  | cons directive rest ih =>
    exact ih (fun other hother ↦ hkept other (List.mem_cons_of_mem _ hother))
      ((hkept directive List.mem_cons_self).state hr)

/-- Executors in two working directories with the same content do the same: they leave the same content,
count the same, report events of the same severities and raise the same failures, as long as neither
of them has reported that a path is too long. -/
theorem alike_of_performEach (runner runner' : Option CommandRunner)
    (hinner : ∀ directive ∈ directives, directive.IsInner) (h : Run.Alike w w' [] r r')
    (hclear : ¬ (performEach ⟨w, runner⟩ directives r).2.Hindered)
    (hclear' : ¬ (performEach ⟨w', runner'⟩ directives r').2.Hindered) :
    (performEach ⟨w', runner'⟩ directives r').1 = (performEach ⟨w, runner⟩ directives r).1 ∧
      Run.Alike w w' [] (performEach ⟨w, runner⟩ directives r).2
        (performEach ⟨w', runner'⟩ directives r').2 := by
  induction directives generalizing r r' with
  | nil => exact ⟨rfl, h⟩
  | cons directive rest ih =>
    have hrest (other : Directive) (hother : other ∈ rest) : other.IsInner :=
      hinner other (List.mem_cons_of_mem _ hother)
    have htied (other : Directive) (hother : other ∈ rest) :
        Tied w w' (perform ⟨w, runner⟩ other) (perform ⟨w', runner'⟩ other) :=
      tied_perform runner runner' (hrest other hother)
    have hstep : Tied w w' (perform ⟨w, runner⟩ directive) (perform ⟨w', runner'⟩ directive) :=
      tied_perform runner runner' (hinner directive List.mem_cons_self)
    rcases hstep.alike r r' h with hexcused | hexcused | htogether
    · refine absurd (hindered_performEach (fun other hother ↦ (htied other hother).left) ?_) hclear
      exact hexcused.resolve_right fun ⟨_, _, hf⟩ ↦ hf
    · refine absurd (hindered_performEach (fun other hother ↦ (htied other hother).right) ?_) hclear'
      exact hexcused.resolve_right fun ⟨_, _, hf⟩ ↦ hf
    · obtain ⟨hsame, halike⟩ : ((perform ⟨w', runner'⟩ directive).run r').1 =
          ((perform ⟨w, runner⟩ directive).run r).1 ∧ Run.Alike w w' []
            ((perform ⟨w, runner⟩ directive).run r).2 ((perform ⟨w', runner'⟩ directive).run r').2 := by
        rcases hrun : (perform ⟨w, runner⟩ directive).run r with ⟨f | ⟨⟩, s⟩ <;>
          rcases hrun' : (perform ⟨w', runner'⟩ directive).run r' with ⟨g | ⟨⟩, t⟩ <;>
          rw [hrun, hrun'] at htogether
        · exact ⟨congrArg Except.error htogether.1.symm, htogether.2⟩
        · cases htogether
        · cases htogether
        · exact ⟨rfl, htogether⟩
      obtain ⟨hresults, hends⟩ := ih hrest halike hclear hclear'
      exact ⟨congrArg₂ List.cons hsame hresults, hends⟩

theorem alike_first {s t : Store} (h : Store.Alike w w' s t) :
    Run.Alike w w' [] (Run.first s) (Run.first t) where
  store := h
  counters := rfl
  severities := rfl
  silent := rfl
  silent' := rfl
  reached hmem := absurd hmem List.not_mem_nil

/-- A run that has only informed has not reported that a path is too long. -/
theorem not_hindered_of_informed (h : ∀ notice ∈ r.notices, notice.1 ≠ .warning) : ¬ r.Hindered :=
  fun ⟨_, _, hmem⟩ ↦ h _ hmem rfl

/-- A directory at the top with a file in it, and a symbolic link to the directory beside it. -/
def homeOf (name : String) : Store :=
  ((Store.empty.put [name] .dir).putFile [name, "g"] [1]).put ["l"] (.link name)

theorem numbered_homeOf (name : String) : (homeOf name).Numbered :=
  ((numbered_empty.put (by simp) rfl).putFile (by simp)).put (by simp) rfl

theorem alike_homes : Store.Alike ⟨.top, ["d"]⟩ ⟨.top, ["[x*y?"]⟩ (homeOf "d") (homeOf "[x*y?") where
  toSameBelow := .of_entries rfl (by decide) (by decide)
  home := ⟨rfl, by decide, by decide⟩
  home' := ⟨rfl, by decide, by decide⟩
  left := ⟨by decide, .of_entries (by decide), numbered_homeOf "d", rfl⟩
  right := ⟨by decide, .of_entries (by decide), numbered_homeOf "[x*y?", rfl⟩

/-- A file is moved, and then a pattern with a wildcard in a directory is refused, in a directory with
wildcards in its name as in another one. -/
theorem alike_of_performEach_homes :
    let directives : List Directive := [.delete "a*", .move "g" "h" .merge, .delete "*/h"]
    let left := performEach ⟨⟨.top, ["d"]⟩, none⟩ directives (Run.first (homeOf "d"))
    let right := performEach ⟨⟨.top, ["[x*y?"]⟩, none⟩ directives (Run.first (homeOf "[x*y?"))
    (∀ directive ∈ directives, directive.IsInner) ∧ ¬ left.2.Hindered ∧ ¬ right.2.Hindered ∧
      right.1 = left.1 ∧ Run.Alike ⟨.top, ["d"]⟩ ⟨.top, ["[x*y?"]⟩ [] left.2 right.2 := by
  intro directives left right
  have hinner (directive : Directive) (hmem : directive ∈ directives) : directive.IsInner := by
    simp only [directives, List.mem_cons, List.not_mem_nil, or_false] at hmem
    rcases hmem with rfl | rfl | rfl
    · exact ⟨by decide, by decide⟩
    · exact ⟨⟨by decide, by decide⟩, ⟨by decide, by decide⟩, by decide⟩
    · exact ⟨by decide, by decide⟩
  have hclear : ¬ left.2.Hindered := not_hindered_of_informed (by decide +kernel)
  have hclear' : ¬ right.2.Hindered := not_hindered_of_informed (by decide +kernel)
  exact ⟨hinner, hclear, hclear',
    alike_of_performEach none none hinner (alike_first alike_homes) hclear hclear'⟩

theorem numbered_nested (name : String) (depth : ℕ) : (nested name depth).Numbered := by
  induction depth with
  | zero => exact numbered_empty
  | succ depth ih => exact ih.put (by simp) rfl

/-- An empty directory at the top and one that is so deep that its path is nearly too long. -/
theorem alike_deepDirectory :
    Store.Alike ⟨.top, ["d"]⟩ deepDirectory (Store.empty.put ["d"] .dir) (nested (letters 250) 16) := by
  obtain ⟨hs, hdir, hfree⟩ := wellFormed_nested (@isName_letters 250 (by decide) (by decide)) 16
  have hbelow (rest : List String) : Store.entry? (nested (letters 250) 16) (deepDirectory.parts ++ rest) =
      Store.entry? (Store.empty.put ["d"] .dir) (["d"] ++ rest) := by
    rcases rest with _ | ⟨name, rest⟩
    · rw [List.append_nil, deepDirectory, hdir]
      rfl
    · rw [hfree _ (by simp [deepDirectory]), Store.entry?_put (by simp)]
      rfl
  exact
    { toSameBelow := .of_entry?_eq hbelow
      home := ⟨rfl, by decide, by decide⟩
      home' := ⟨rfl, by simp [deepDirectory], fun _ ↦ isName_of_deep⟩
      left := ⟨by decide, .of_entries (by decide), numbered_empty.put (by simp) rfl, rfl⟩
      right := ⟨hs, .of_entries (by decide +kernel), numbered_nested _ _,
        hs.dir_of_prefix hdir (List.dropLast_prefix _)⟩ }

/-- Deletions and moves that do not do the same in two directories with the same content: a path is too
long in one of them; one of them is the top, is named by way of a directory in it, is a symbolic link or
is named by way of one that leads through it; or events are written to a file in one of them. -/
theorem not_alike_of_performEach :
    (let directives := [Directive.delete (letters 100)]
     let r := Run.first (Store.empty.put ["d"] .dir)
     let r' := Run.first (nested (letters 250) 16)
     Run.Alike ⟨.top, ["d"]⟩ deepDirectory [] r r' ∧ (∀ directive ∈ directives, directive.IsInner) ∧
      (performEach ⟨⟨.top, ["d"]⟩, none⟩ directives r).2.counters.value "failed" = 0 ∧
      (performEach ⟨deepDirectory, none⟩ directives r').2.counters.value "failed" = 1) ∧
    (let directives := [Directive.delete "."]
     let s := Store.empty
     let t := Store.empty.put ["d"] .dir
     s.WellFormed ∧ s.LinkFree ∧ t.WellFormed ∧ t.LinkFree ∧ SameBelow [] ["d"] s t ∧
      (∀ directive ∈ directives, directive.IsInner) ∧
      (performEach ⟨⟨.top, []⟩, none⟩ directives (Run.first s)).2.counters.value "deleted" = 0 ∧
      (performEach ⟨⟨.top, ["d"]⟩, none⟩ directives (Run.first t)).2.counters.value "deleted" = 1) ∧
    (let directives := [Directive.delete "d", Directive.move "x" "y" .merge]
     let s := ((Store.empty.put ["a"] .dir).put ["a", "d"] .dir).put ["a", "x"] .dir
     let t := ((Store.empty.put ["e"] .dir).put ["e", "d"] .dir).put ["e", "x"] .dir
     s.WellFormed ∧ s.LinkFree ∧ t.WellFormed ∧ t.LinkFree ∧ SameBelow ["a"] ["e"] s t ∧
      s.target .followed ⟨.top, ["a", "d", ".."]⟩ = .ok (.found ["a"] .dir) ∧
      (∀ directive ∈ directives, directive.IsInner) ∧
      (performEach ⟨⟨.top, ["a", "d", ".."]⟩, none⟩ directives (Run.first s)).2.counters.value "moved" = 0 ∧
      (performEach ⟨⟨.top, ["e"]⟩, none⟩ directives (Run.first t)).2.counters.value "moved" = 1) ∧
    (let directives := [Directive.delete "."]
     let s := (Store.empty.put ["d"] .dir).put ["l"] (.link "d")
     s.WellFormed ∧ s.target .followed ⟨.top, ["l"]⟩ = .ok (.found ["d"] .dir) ∧
      (∀ directive ∈ directives, directive.IsInner) ∧
      (performEach ⟨⟨.top, ["l"]⟩, none⟩ directives (Run.first s)).2.counters.value "deleted" = 0 ∧
      (performEach ⟨⟨.top, ["d"]⟩, none⟩ directives (Run.first s)).2.counters.value "deleted" = 1) ∧
    (let directives := [Directive.delete ".", Directive.move "*" "q" .merge]
     let s := (Store.empty.put ["d"] .dir).put ["l"] (.link "d/..")
     s.WellFormed ∧ s.target .followed ⟨.top, ["l", "d"]⟩ = .ok (.found ["d"] .dir) ∧
      (∀ directive ∈ directives, directive.IsInner) ∧
      Store.entry? (performEach ⟨⟨.top, ["l", "d"]⟩, none⟩ directives (Run.first s)).2.store ["d", "q"] =
        none ∧
      Store.entry? (performEach ⟨⟨.top, ["d"]⟩, none⟩ directives (Run.first s)).2.store ["d", "q"] =
        some .dir) ∧
    (let directives := [Directive.delete "f"]
     let s := (((Store.empty.put ["d"] .dir).put ["d", "f"] .dir).put ["x"] .dir).put ["x", "f"] .dir
     let r : Run := { Run.first s with journal := ⟨some ⟨.top, ["d", "e"]⟩, "", false, []⟩ }
     s.WellFormed ∧ s.LinkFree ∧ SameBelow ["d"] ["x"] s s ∧
      (∀ directive ∈ directives, directive.IsInner) ∧
      ¬ SameBelow ["d"] ["x"] (performEach ⟨⟨.top, ["d"]⟩, none⟩ directives r).2.store
        (performEach ⟨⟨.top, ["x"]⟩, none⟩ directives r).2.store) := by
  have hdelete {operand : String} (hinner : IsInner operand) :
      ∀ directive ∈ [Directive.delete operand], directive.IsInner := by simpa [Directive.IsInner]
  have hboth {operand source destination : String} (hinner : IsInner operand) (hsource : IsInner source)
      (hdestination : IsInner destination) (hnamed : (Path.ofString source).parts ≠ []) :
      ∀ directive ∈ [Directive.delete operand, Directive.move source destination .merge],
        directive.IsInner := by
    simp [Directive.IsInner, hinner, hsource, hdestination, hnamed]
  refine ⟨⟨alike_first alike_deepDirectory, hdelete ⟨by decide +kernel, by decide +kernel⟩, by decide +kernel,
      by decide +kernel⟩,
    ⟨by decide, .of_entries (by decide), by decide, .of_entries (by decide),
      .of_entries rfl (by decide) (by decide), hdelete ⟨by decide, by decide⟩, by decide +kernel,
      by decide +kernel⟩,
    ⟨by decide, .of_entries (by decide), by decide, .of_entries (by decide),
      .of_entries rfl (by decide) (by decide), rfl,
      hboth ⟨by decide, by decide⟩ ⟨by decide, by decide⟩ ⟨by decide, by decide⟩ (by decide),
      by decide +kernel, by decide +kernel⟩,
    ⟨by decide, rfl, hdelete ⟨by decide, by decide⟩, by decide +kernel, by decide +kernel⟩,
    ⟨by decide, rfl,
      hboth ⟨by decide, by decide⟩ ⟨by decide, by decide⟩ ⟨by decide, by decide⟩ (by decide),
      by decide +kernel, by decide +kernel⟩,
    ⟨by decide, .of_entries (by decide), .of_entries rfl (by decide) (by decide),
      hdelete ⟨by decide, by decide⟩, fun h ↦ ?_⟩⟩
  exact absurd (h.forms ["e"]) (by decide +kernel)

end Executor

end DeferredOps
