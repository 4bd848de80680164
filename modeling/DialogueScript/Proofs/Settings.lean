import DialogueScript.CommandLine
import DialogueScript.Proofs.BuiltinRuns

/-!
# Settings and assignments

A setting `NAME=VALUE` of the command line is made before the script is compiled: it is cut
at its first `=`, and the value is compiled and evaluated at once. An assignment at the
front of the script takes the way of all statements: it is cut out at its `;`, loses the
blanks around it, is told from a call by what stands behind its name, and runs only if all
of the script is accepted. The two come to the same. What differs is the wording and the
place of a complaint, so the reasons for a refusal are left aside here.

Main statements:
1. `Block.toOption_parse_assignment`: reading an assignment, and then more.
2. `Invocation.variablesAfter_assignment`: an assignment at the front of a script is a
   setting.
3. `Invocation.run_eq_run_assignments`: settings and assignments in a run.
-/

namespace DialogueScript

open Text

/-! ## An assignment at the front -/

/-- A value that loses its last blanks keeps its plan. -/
theorem Plan.toOption_ofText_trimEnd (text : List Char) :
    (ofText (trimEnd text)).toOption = (ofText text).toOption := by
  obtain ⟨after, hblank, htext⟩ := trimEnd_append_blanks text
  unfold ofText
  rw [toOption_bind, toOption_bind, ← Token.scan_append_blanks hblank, htext]

section

variable {φ : Type} {registry : NameTable φ}

theorem Block.toOption_ofFragments_assignment {f : Fragment}
    (hk : StatementKind.classify f.text = .ok .assignment) (rest : List Fragment) :
    (Block.ofFragments registry (f :: rest)).toOption =
      (Statement.readAssignment f.text).toOption.bind fun assignment =>
        (Block.ofFragments registry rest).toOption.map
          (.cons (.assign assignment.1 assignment.2 f.offset)) := by
  cases hr : Statement.readAssignment f.text with
  | ok assignment =>
    rw [Block.ofFragments_assignment hk hr, toOption_map]
    rfl
  | error e =>
    rw [Block.ofFragments, Fragment.readWith_eq_ok hk]
    show (f.readWith Statement.readAssignment >>= _).toOption = none
    rw [toOption_bind, Fragment.readWith, toOption_mapError, hr]
    rfl

/-- Farther behind, a text is read as it is alone. -/
theorem Block.toOption_parse_moved (source : List Char) (distance : Nat) :
    (Fragment.splitFrom distance 0 [] source >>= Block.ofFragments registry).toOption =
      (Block.parse registry source).toOption.map fun b => b.map id (· + distance) := by
  have hcover : registry.Covers registry id id := fun name function hf => ⟨function, hf, rfl⟩
  rcases (Block.parse_inStep hcover source distance).ends_alike with
    ⟨alone, moved, halone, hmoved, hmap⟩ | ⟨cause, p, halone, hmoved⟩
  · rw [Block.map_id] at hmap
    rw [halone, hmoved, hmap]
    rfl
  · rw [halone, hmoved]
    rfl

/-- An assignment at the front of a text is read, and then the text. -/
theorem Block.toOption_parse_assignment (before after : Gap) {name value : List Char}
    (hname : IsName name) (hif : name ≠ ['i', 'f']) (hvalue : Fragment.Plain value)
    (rest : List Char) :
    let text := before.text ++ (name ++ (after.text ++ '=' :: value))
    (Block.parse registry (text ++ ';' :: rest)).toOption =
      (Plan.ofText value).toOption.bind fun plan => (Block.parse registry rest).toOption.map fun b =>
        .cons (.assign (String.ofList name) plan before.text.length)
          (b.map id (· + (text.length + 1))) := by
  intro text
  have hplain : Fragment.Plain text := by
    have hnamed : Fragment.Plain name := plain_of_isNamePart hname.all_isNamePart
    exact (Fragment.plain_gap before).append (hnamed.append
      ((Fragment.plain_gap after).append (hvalue.cons ⟨by decide, by decide, by decide⟩)))
  have hsplit := Fragment.splits_semicolon hplain 0 0 rest
  rw [List.append_assoc, List.singleton_append, List.length_append, List.length_singleton,
    Nat.zero_add, Fragment.ofPiece_assignment before hname, Nat.zero_add] at hsplit
  have hkind : StatementKind.classify (name ++ (after.text ++ '=' :: trimEnd value)) =
      .ok .assignment := StatementKind.classify_append hname hif after.blank (Or.inl ⟨rfl, rfl⟩)
  have hread : (Statement.readAssignment (name ++ (after.text ++ '=' :: trimEnd value))).toOption =
      (Plan.ofText value).toOption.map fun plan => (String.ofList name, plan) := by
    rw [Statement.readAssignment_append hname after.blank, toOption_map, Plan.compile,
      toOption_mapError, Plan.toOption_ofText_trimEnd]
  calc (Block.parse registry (text ++ ';' :: rest)).toOption
    _ = (Fragment.splitFrom (text.length + 1) 0 [] rest).toOption.bind fun fragments =>
          (Plan.ofText value).toOption.bind fun plan =>
            (Block.ofFragments registry fragments).toOption.map
              (.cons (.assign (String.ofList name) plan before.text.length)) := by
      rw [Block.parse, Fragment.split, hsplit, toOption_bind, toOption_map, Option.bind_map]
      congr 1
      funext fragments
      show (Block.ofFragments registry (_ :: fragments)).toOption = _
      rw [Block.toOption_ofFragments_assignment hkind, hread, Option.bind_map]
      rfl
    _ = (Plan.ofText value).toOption.bind fun plan =>
          (Fragment.splitFrom (text.length + 1) 0 [] rest >>=
            Block.ofFragments registry).toOption.map
              (.cons (.assign (String.ofList name) plan before.text.length)) := by
      rw [Option.bind_comm, toOption_bind]
      simp only [Option.map_bind]
      rfl
    _ = _ := by
      rw [Block.toOption_parse_moved]
      simp only [Option.map_map]
      rfl

end

namespace Invocation

/-! ## One setting -/

/-- The setting is `NAME=VALUE`. Without the blanks around it, NAME is a name other than
`if`, and in VALUE there is no mark that would end a statement. -/
def IsAssignment (setting : String) : Prop :=
  ∃ name value, setting.toList = name ++ '=' :: value ∧ IsName (trim name) ∧
    trim name ≠ ['i', 'f'] ∧ Fragment.Plain value

def variablesAfter (draws : Nat → Float) (source : List Char) (store : Store) : Option Store :=
  (Block.parse Registry.builtin source).toOption.map fun b =>
    (b.execute { store, draws }).machine.store

theorem variablesAfter_draws (draws draws' : Nat → Float) (source : List Char) (store : Store) :
    variablesAfter draws source store = variablesAfter draws' source store := by
  unfold variablesAfter
  cases hparse : Block.parse Registry.builtin source with
  | error e => rfl
  | ok b => exact congrArg some (Block.store_eq_of_builtin (Block.boundBy_of_parse hparse) rfl)

/-- The name of a setting stands before the first `=` of it, and all that follows is the
value. -/
theorem toOption_applySetting {setting : String} {name value : List Char}
    (htext : setting.toList = name ++ '=' :: value) (hname : IsName (trim name)) (store : Store) :
    (applySetting store setting).toOption = (Plan.ofText value).toOption.map fun plan =>
      store.insert (String.ofList (trim name)) (plan.evaluate store) := by
  have hcut : cutFirst? '=' setting.toList = some (name, value) := by
    obtain ⟨after, hafter, hsplit⟩ := takeWhile_append_trim name
    refine cutFirst?_eq_some_iff.mpr ⟨htext, fun hm => ?_⟩
    rw [hsplit] at hm
    rcases List.mem_append.mp hm with hm | hm
    · exact not_mem_of_all List.all_takeWhile (by decide) hm
    · exact hname.not_mem_append hafter (by decide) (by decide) hm
  have hfilled : (String.ofList (trim name)).isEmpty = false := by
    obtain ⟨c, more, htrim, _⟩ := hname
    rw [htrim]
    simp
  have hcompile : (Plan.compile value 0).toOption = (Plan.ofText value).toOption :=
    toOption_mapError _ _
  unfold applySetting
  simp only [hcut, hfilled, if_neg Bool.false_ne_true]
  rw [← hcompile]
  cases Plan.compile value 0 with
  | error e => rfl
  | ok plan => rfl

/-- An assignment at the front of a script does what the setting does before it. -/
theorem variablesAfter_assignment {setting : String} (h : IsAssignment setting)
    (draws : Nat → Float) (source : List Char) (store : Store) :
    variablesAfter draws (setting.toList ++ ';' :: source) store =
      (applySetting store setting).toOption.bind (variablesAfter draws source) := by
  obtain ⟨name, value, htext, hname, hif, hvalue⟩ := h
  obtain ⟨after, hafter, hsplit⟩ := takeWhile_append_trim name
  let before : Gap := ⟨name.takeWhile isBlank, List.all_takeWhile⟩
  have hwhole : setting.toList = before.text ++ (trim name ++ (after ++ '=' :: value)) := by
    rw [htext, ← List.append_assoc, ← List.append_assoc, List.append_assoc before.text]
    exact congrArg (· ++ '=' :: value) hsplit
  rw [toOption_applySetting htext hname, variablesAfter, hwhole,
    Block.toOption_parse_assignment before ⟨after, hafter⟩ hname hif hvalue, Option.bind_map,
    Option.map_bind]
  congr 1
  funext plan
  -- The assignment is made, and the rest runs from there as it would from the setting.
  unfold variablesAfter
  cases hparse : Block.parse Registry.builtin source with
  | error e => rfl
  | ok b =>
    refine congrArg some ?_
    let m : Machine := ⟨store, draws, 0, []⟩
    let assigned := m.assign (String.ofList (trim name)) (plan.evaluate store)
    have hmoved (place : Nat → Nat) :
        ((b.map id place).execute assigned).machine = (b.execute assigned).machine := by
      rw [b.execute_map]
      rfl
    exact (congrArg Machine.store (hmoved _)).trans
      (Block.store_eq_of_builtin (Block.boundBy_of_parse hparse) rfl)

/-! ## Whole runs -/

/-- Assignments for the settings at the front of a script do what the settings do. -/
theorem variablesAfter_assignments {settings : List String}
    (h : ∀ setting ∈ settings, IsAssignment setting) (draws : Nat → Float) (source : String)
    (store : Store) :
    (settings.foldlM applySetting store).toOption.bind (variablesAfter draws source.toList) =
      variablesAfter draws (String.join (settings.map (· ++ ";")) ++ source).toList store := by
  induction settings generalizing store with
  | nil => simp [Except.toOption, pure, Except.pure]
  | cons setting settings ih =>
    obtain ⟨hsetting, hsettings⟩ := List.forall_mem_cons.mp h
    have htext : (String.join ((setting :: settings).map (· ++ ";")) ++ source).toList =
        setting.toList ++ ';' :: (String.join (settings.map (· ++ ";")) ++ source).toList := by
      simp
    rw [htext, variablesAfter_assignment hsetting, List.foldlM_cons, toOption_bind,
      Option.bind_assoc]
    congr 1
    funext store
    exact ih hsettings store

/-- The status and the output of a run tell no more than whether something was refused and
otherwise the variables at the end. -/
theorem run_eq_elim (i : Invocation) (draws : Nat → Float) (source : String) :
    let result := i.run draws (.ok source)
    (result.status, result.output) =
      ((i.settings.foldlM applySetting .empty).toOption.bind
        (variablesAfter draws source.toList)).elim (1, "") fun store => (0, listing store) := by
  unfold run variablesAfter
  cases i.settings.foldlM applySetting .empty with
  | error e => rfl
  | ok store =>
    cases hparse : Block.parse Registry.builtin source.toList with
    | error e =>
      simp only [Script.compile, hparse]
      rfl
    | ok b =>
      have hend := Block.failure_eq_none (Block.boundBy_of_parse hparse) ⟨store, draws, 0, []⟩
      simp only [Script.compile, hparse, Script.execute, hend]
      rfl

/-- A run with settings has the status and the output of a run without any on the script
that has the settings in front as assignments. Nothing else of the two invocations counts,
nor what is drawn. -/
theorem run_eq_run_assignments (i i' : Invocation)
    (h : ∀ setting ∈ i.settings, IsAssignment setting) (h' : i'.settings = [])
    (source : String) (draws draws' : Nat → Float) :
    let result := i.run draws (.ok source)
    let result' := i'.run draws' (.ok (String.join (i.settings.map (· ++ ";")) ++ source))
    result.status = result'.status ∧ result.output = result'.output := by
  intro result result'
  have hsame : (result.status, result.output) = (result'.status, result'.output) := by
    rw [run_eq_elim i, run_eq_elim i', variablesAfter_assignments h, h']
    exact congrArg (Option.elim · _ _) (variablesAfter_draws draws draws' _ .empty)
  exact Prod.mk.inj hsame

/-- Blanks around a name and a value, a variable with the name `else`, and a setting that
reads one before it. -/
theorem run_eq_run_assignments_two_settings :
    (∀ setting ∈ [" x = 'a' ", "else=x"], IsAssignment setting) ∧
    ∀ draws,
      let result := ({} : Invocation).run draws (.ok " x = 'a' ;else=x;y=else")
      result.status = 0 ∧ result.output = "else = a\nx = a\ny = a\n" := by
  let i : Invocation := { settings := [" x = 'a' ", "else=x"] }
  have h : ∀ setting ∈ i.settings, IsAssignment setting := by
    have hx : IsAssignment " x = 'a' " :=
      ⟨" x ".toList, " 'a' ".toList, by simp, ⟨'x', [], by decide, by decide, rfl⟩, by decide,
        by simp [Fragment.Plain]⟩
    have helse : IsAssignment "else=x" :=
      ⟨"else".toList, "x".toList, by simp, ⟨'e', "lse".toList, by decide, by decide, by decide⟩,
        by decide, by simp [Fragment.Plain]⟩
    exact List.forall_mem_cons.mpr ⟨hx, List.forall_mem_singleton.mpr helse⟩
  refine ⟨h, fun draws => ?_⟩
  have hset : i.run draws (.ok "y=else") = ⟨0, "else = a\nx = a\ny = a\n", ""⟩ := by cbv
  obtain ⟨hstatus, houtput⟩ := run_eq_run_assignments i {} h rfl "y=else" draws draws
  rw [hset] at hstatus houtput
  exact ⟨hstatus.symm, houtput.symm⟩

end Invocation

end DialogueScript
