import DialogueScript.Proofs.FailedCalls

/-!
# Runs with the built-in functions

The functions that come with the language always answer, and they hand the store back as
they got it. What `rand` draws is part of its answer only, and no statement looks at an
answer. So a script that calls nothing else never fails, and what it does to the store is
settled by the store that it starts from.

Main statements:
1. `Block.failure_eq_none`: such a block never fails.
2. `Block.execute_inConcert_builtin`: from one store, two runs do the same.
3. `Script.execute_builtin_deterministic`: what follows for a compiled script.
-/

namespace DialogueScript

/-! ## Blocks -/

section

variable {b : Block HostFunction} (hb : b.BoundBy Registry.builtin)
include hb

/-- A run could only fail at a call, and no function that is called fails. -/
theorem Block.failure_eq_none (m : Machine) : (b.execute m).failure = none := by
  obtain ⟨path, hpath, halong⟩ := b.execute_along m
  generalize b.execute m = o at halong
  cases halong with
  | done _ => rfl
  | @failed _ middle after name message function arguments offset _ hcall =>
    have hnode : Node.call name function arguments offset ∈ b.nodes :=
      hpath.subset (List.mem_append_right _ List.mem_cons_self)
    have hanswers := Registry.answers_builtin (hb name function arguments offset hnode)
    obtain ⟨value, hrun⟩ := hanswers (middle.draws middle.calls)
      (arguments.map fun a => a.evaluate middle.store) middle.store
    exact nomatch hrun.symm.trans (Machine.call_eq hcall).1

/-- Two runs from the same store are in concert, whatever the machines drew or did before. -/
theorem Block.execute_inConcert_builtin {m m' : Machine} (hs : m.store = m'.store) :
    Outcome.InConcert b.writes m m' (b.execute m) (b.execute m') := by
  have hagree : Store.AgreeOn b.reads m.store m'.store := fun name _ => by rw [hs]
  exact b.execute_inConcert hagree (hb.within fun _ _ => Registry.isolated_builtin)

/-- The store after a run is settled by the store before it. -/
theorem Block.store_eq_of_builtin {m m' : Machine} (hs : m.store = m'.store) :
    (b.execute m).machine.store = (b.execute m').machine.store := by
  obtain ⟨-, trace, trace', hran, hran', htrace, -⟩ := Block.execute_inConcert_builtin hb hs
  rw [hran.store_eq, hran'.store_eq, hs, Store.replay_congr htrace]

end

/-! ## Scripts -/

theorem Script.boundBy_of_compile {registry : Registry} {source : String} {node : Option Nat}
    {code : Script} (h : Script.compile registry source node = .ok code) :
    code.root.BoundBy registry :=
  Block.boundBy_of_parse (Script.parse_of_compile h).2

/-- A script that is compiled against the functions that come with the language never
fails. Two runs from one store leave the same store behind, whatever is drawn, and the same
trace up to the answers of the functions. -/
theorem Script.execute_builtin_deterministic {source : String} {node : Option Nat}
    {code : Script} (h : Script.compile Registry.builtin source node = .ok code)
    (node' : Option Nat) (store : Store) (draws draws' : Nat → Float) :
    let run := code.execute node' ⟨store, draws, 0, []⟩
    let run' := code.execute node' ⟨store, draws', 0, []⟩
    run.failure = none ∧ run'.failure = none ∧ run.machine.store = run'.machine.store ∧
    run.machine.events.map Event.withoutAnswer = run'.machine.events.map Event.withoutAnswer := by
  have hb := Script.boundBy_of_compile h
  let m : Machine := ⟨store, draws, 0, []⟩
  let m' : Machine := ⟨store, draws', 0, []⟩
  have hs : m.store = m'.store := rfl
  obtain ⟨-, trace, trace', hran, hran', htrace, -⟩ := Block.execute_inConcert_builtin hb hs
  have hevents : (code.root.execute m).machine.events = trace := hran.events_eq
  have hevents' : (code.root.execute m').machine.events = trace' := hran'.events_eq
  refine ⟨?_, ?_, Block.store_eq_of_builtin hb hs, ?_⟩
  · exact congrArg (Option.map _) (Block.failure_eq_none hb m)
  · exact congrArg (Option.map _) (Block.failure_eq_none hb m')
  · show (code.root.execute m).machine.events.map _ = (code.root.execute m').machine.events.map _
    rw [hevents, hevents', htrace]

/-- Calls without arguments, with a variable for a bound that is not set, and with texts for
bounds that are the wrong way round. -/
theorem Script.execute_builtin_deterministic_odd_arguments :
    let source := "if(x)\x7brand();rand(x,y)\x7delse\x7brand('5','1')\x7d;restartSpiel(x);z=x"
    ∃ code, Script.compile Registry.builtin source none = .ok code ∧
      ∀ draws draws',
        let run := code.execute none ⟨.empty, draws, 0, []⟩
        let run' := code.execute none ⟨.empty, draws', 0, []⟩
        run.failure = none ∧ run'.failure = none ∧ run.machine.store = run'.machine.store := by
  intro source
  let x : Plan := ⟨[⟨none, none, some (.variable "x")⟩]⟩
  let y : Plan := ⟨[⟨none, none, some (.variable "y")⟩]⟩
  let text (s : String) : Plan := ⟨[⟨none, none, some (.literal (.str s))⟩]⟩
  have hcode : Script.compile Registry.builtin source none =
      .ok ⟨source, .cons (.branch x
          (.cons (.call "rand" HostFunction.rand [] 6)
            (.cons (.call "rand" HostFunction.rand [x, y] 13) .nil))
          (.block (.cons (.call "rand" HostFunction.rand [text "5", text "1"] 28) .nil)) 0)
        (.cons (.call "restartSpiel" HostFunction.restartSpiel [x] 43)
          (.cons (.assign "z" x 59) .nil))⟩ := by cbv
  refine ⟨_, hcode, fun draws draws' => ?_⟩
  obtain ⟨hend, hend', hstore, -⟩ :=
    Script.execute_builtin_deterministic hcode none .empty draws draws'
  exact ⟨hend, hend', hstore⟩

end DialogueScript
