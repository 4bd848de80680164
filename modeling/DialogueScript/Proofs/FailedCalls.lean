import DialogueScript.Proofs.Noninterference

/-!
# Failed calls

A run goes along some nodes of its block, in the order of the text, and does what they
say: it assigns a variable, or it calls a function. It ends behind the last of them or with
a call that fails, and then nothing more is done. The failure names the function, and its
position is where that call stands in the source.

Main statements:
1. `Block.execute_along`: every run of a block goes along nodes of the block.
2. `Block.callAt_of_parse`: a call stands in the source at its offset.
3. `Script.execute_failure`: what a failed run did, and where it says that it failed.
-/

namespace DialogueScript

open Text

/-! ## Runs along nodes -/

/-- The machine performs the nodes one after the other. All of them are assignments and
calls, and no call fails. -/
inductive Machine.Performs : Machine → List (Node HostFunction) → Machine → Prop
  | nil (m : Machine) : Machine.Performs m [] m
  | assign {m after : Machine} {target : String} {value : Plan} {offset : Nat}
      {rest : List (Node HostFunction)} :
      Machine.Performs (m.assign target (value.evaluate m.store)) rest after →
      Machine.Performs m (.assign target value offset :: rest) after
  | call {m next after : Machine} {name : String} {function : HostFunction}
      {arguments : List Plan} {offset : Nat} {answer : Value} {rest : List (Node HostFunction)} :
      m.call name function (arguments.map fun a => a.evaluate m.store) = (.ok answer, next) →
      Machine.Performs next rest after →
      Machine.Performs m (.call name function arguments offset :: rest) after

/-- How a run along nodes ends. -/
inductive Outcome.Along (m : Machine) : List (Node HostFunction) → Outcome → Prop
  /-- All nodes are performed. -/
  | done {path : List (Node HostFunction)} {after : Machine} : m.Performs path after →
      Outcome.Along m path ⟨none, after⟩
  /-- The last node is a call that fails, and those before it are performed. -/
  | failed {path : List (Node HostFunction)} {middle after : Machine} {name message : String}
      {function : HostFunction} {arguments : List Plan} {offset : Nat} : m.Performs path middle →
      middle.call name function (arguments.map fun a => a.evaluate middle.store) =
        (.error message, after) →
      Outcome.Along m (path ++ [.call name function arguments offset])
        ⟨some (.atChar ⟨name, message⟩ offset), after⟩

theorem Machine.Performs.append {m middle after : Machine} {path more : List (Node HostFunction)}
    (h : m.Performs path middle) (hmore : middle.Performs more after) :
    m.Performs (path ++ more) after := by
  induction h with
  | nil => exact hmore
  | assign _ ih => exact .assign (ih hmore)
  | call hcall _ ih => exact .call hcall (ih hmore)

theorem Machine.Performs.along {m middle : Machine} {path more : List (Node HostFunction)}
    {o : Outcome} (h : m.Performs path middle) (ho : Outcome.Along middle more o) :
    Outcome.Along m (path ++ more) o := by
  cases ho with
  | done hmore => exact .done (h.append hmore)
  | failed hmore hcall =>
    rw [← List.append_assoc]
    exact .failed (h.append hmore) hcall

mutual

theorem Statement.execute_along (m : Machine) : (s : Statement HostFunction) →
    ∃ path, path.Sublist s.nodes ∧ Outcome.Along m path (s.execute m)
  | .assign target value offset => ⟨_, .refl _, .done (.assign (.nil _))⟩
  | .call name function arguments offset => by
    rw [Statement.execute]
    cases hcall : m.call name function (arguments.map fun a => a.evaluate m.store) with
    | mk reply after =>
      cases reply with
      | ok answer => exact ⟨_, .refl _, .done (.call hcall (.nil after))⟩
      | error message => exact ⟨_, .refl _, .failed (.nil m) hcall⟩
  | .branch condition body otherwise offset => by
    rw [Statement.execute]
    split
    · obtain ⟨path, hpath, halong⟩ := body.execute_along m
      exact ⟨path, (hpath.trans (List.sublist_append_left _ _)).cons _, halong⟩
    · obtain ⟨path, hpath, halong⟩ := otherwise.execute_along m
      exact ⟨path, (hpath.trans (List.sublist_append_right _ _)).cons _, halong⟩

/-- A run of a block goes along nodes of the block. -/
theorem Block.execute_along (m : Machine) : (b : Block HostFunction) →
    ∃ path, path.Sublist b.nodes ∧ Outcome.Along m path (b.execute m)
  | .nil => ⟨[], .refl _, .done (.nil m)⟩
  | .cons head tail => by
    obtain ⟨path, hpath, halong⟩ := head.execute_along m
    rw [Block.execute_cons]
    generalize head.execute m = o at halong
    cases halong with
    | done hperforms =>
      obtain ⟨more, hmore, htail⟩ := tail.execute_along _
      exact ⟨path ++ more, hpath.append hmore, hperforms.along htail⟩
    | failed hperforms hcall =>
      exact ⟨_, hpath.trans (List.sublist_append_left _ _), .failed hperforms hcall⟩

theorem Otherwise.execute_along (m : Machine) : (o : Otherwise HostFunction) →
    ∃ path, path.Sublist o.nodes ∧ Outcome.Along m path (o.execute m)
  | .nothing => ⟨[], .refl _, .done (.nil m)⟩
  | .block body => by
    obtain ⟨path, hpath, halong⟩ := body.execute_along m
    exact ⟨path, hpath.cons _, halong⟩
  | .elseIf condition body otherwise => by
    rw [Otherwise.execute]
    split
    · obtain ⟨path, hpath, halong⟩ := body.execute_along m
      exact ⟨path, (hpath.trans (List.sublist_append_left _ _)).cons _, halong⟩
    · obtain ⟨path, hpath, halong⟩ := otherwise.execute_along m
      exact ⟨path, (hpath.trans (List.sublist_append_right _ _)).cons _, halong⟩

end

/-! ## The trace of a run -/

def Event.Succeeds : Event → Prop
  | .assigned _ _ => True
  | .called _ _ _ reply => Reply.message? reply = none

theorem Machine.call_eq {m after : Machine} {name : String} {function : HostFunction}
    {values : List Value} {reply : Reply} (h : m.call name function values = (reply, after)) :
    function.run (m.draws m.calls) values m.store = (reply, after.store) ∧
      after.events = m.events ++ [.called name function.builtin values reply] := by
  unfold Machine.call at h
  cases h
  exact ⟨rfl, rfl⟩

/-- Nothing that a machine performs is a failed call. -/
theorem Machine.Performs.succeeds {m after : Machine} {path : List (Node HostFunction)}
    (h : m.Performs path after) :
    ∃ trace, after.events = m.events ++ trace ∧ ∀ event ∈ trace, event.Succeeds := by
  induction h with
  | nil m => exact ⟨[], (List.append_nil _).symm, fun event he => absurd he List.not_mem_nil⟩
  | @assign m after target value offset rest _ ih =>
    obtain ⟨trace, hevents, hall⟩ := ih
    refine ⟨.assigned target (value.evaluate m.store) :: trace, ?_, ?_⟩
    · rw [hevents, Machine.assign, List.append_assoc, List.singleton_append]
    · exact List.forall_mem_cons.mpr ⟨trivial, hall⟩
  | @call m next after name function arguments offset answer rest hcall _ ih =>
    obtain ⟨trace, hevents, hall⟩ := ih
    refine ⟨.called name function.builtin (arguments.map fun a => a.evaluate m.store)
      (.ok answer) :: trace, ?_, ?_⟩
    · rw [hevents, (Machine.call_eq hcall).2, List.append_assoc, List.singleton_append]
    · exact List.forall_mem_cons.mpr ⟨rfl, hall⟩

/-! ## Calls in the source -/

/-- A call of a name stands at an offset of the source: the name, blanks perhaps, and `(`. -/
def CallAt (source : List Char) (offset : Nat) (name : String) : Prop :=
  offset ≤ source.length ∧ ∃ blanks rest, allBlank blanks = true ∧
    source.drop offset = name.toList ++ (blanks ++ '(' :: rest)

/-- A call stands in the source at its offset. -/
theorem Block.callAt_of_parse {φ : Type} {registry : NameTable φ} {source : List Char}
    {b : Block φ} (h : Block.parse registry source = .ok b) {name : String} {function : φ}
    {arguments : List Plan} {offset : Nat}
    (hc : Node.call name function arguments offset ∈ b.nodes) : CallAt source offset name := by
  obtain ⟨fragments, hsplit, h⟩ := ok_of_bind h
  have hnodes := (Block.ofFragments_eq_ok_iff.mp h).nodes_readFrom
  obtain ⟨f, hf, rfl, hkind, hread⟩ := exists_of_forall₂_of_mem hnodes hc
  have hstands := (Fragment.statementAt_of_mem_split hsplit f hf).standsAt
  obtain ⟨found, blanks, rest, hblank, hname⟩ := StatementKind.leadingName?_of_classify hkind rfl
  obtain ⟨_, hname', _⟩ := Statement.readCall_eq_ok hread
  cases hname.symm.trans hname'
  refine ⟨Nat.le_of_add_right_le hstands.le_length, blanks, ?_⟩
  obtain ⟨before, after, hsource, hlen⟩ := hstands
  refine ⟨rest ++ after, hblank, ?_⟩
  rw [hsource, ← hlen, List.drop_left, (leadingName?_eq_some hname').1]
  simp only [List.append_assoc, List.cons_append]

/-! ## Scripts -/

/-- A script that fails has performed some of its assignments and calls, in the order of its
text, and then called a function of its registry, which failed. The failure tells the
function and its message, at the place where the call stands in the source. The call is the
last event of the run and the only one that failed, and the store is as the function left
it. -/
theorem Script.execute_failure {registry : Registry} {source : String} {node : Option Nat}
    {code : Script} (h : Script.compile registry source node = .ok code) (node' : Option Nat)
    (store : Store) (draws : Nat → Float) {e : Located CallFailure}
    (hfailed : (code.execute node' ⟨store, draws, 0, []⟩).failure = some e) :
    ∃ path name function arguments offset message, ∃ m : Machine,
      let values := arguments.map fun a => a.evaluate m.store
      let after := (code.execute node' ⟨store, draws, 0, []⟩).machine
      (path ++ [.call name function arguments offset]).Sublist code.root.nodes ∧
      registry.find? name = some function ∧
      Machine.Performs ⟨store, draws, 0, []⟩ path m ∧
      m.call name function values = (.error message, after) ∧
      function.run (m.draws m.calls) values m.store = (.error message, after.store) ∧
      (∃ trace, after.events = trace ++ [.called name function.builtin values (.error message)] ∧
        ∀ event ∈ trace, event.Succeeds) ∧
      e.cause.text = "Execution of " ++ name ++ "() failed with " ++ message ∧
      e.position = .ofOffset source.toList offset node' ∧ CallAt source.toList offset name := by
  obtain ⟨rfl, hparse⟩ := Script.parse_of_compile h
  obtain ⟨path, hpath, halong⟩ := code.root.execute_along ⟨store, draws, 0, []⟩
  unfold Script.execute at hfailed ⊢
  generalize code.root.execute ⟨store, draws, 0, []⟩ = o at hfailed halong
  cases halong with
  | done _ => exact nomatch hfailed
  | @failed before m after name message function arguments offset hbefore hcall =>
    cases hfailed
    have hnode : Node.call name function arguments offset ∈ code.root.nodes :=
      hpath.subset (List.mem_append_right _ List.mem_cons_self)
    obtain ⟨hrun, hevents⟩ := Machine.call_eq hcall
    obtain ⟨trace, htrace, hsucceeds⟩ := hbefore.succeeds
    refine ⟨before, name, function, arguments, offset, message, m, hpath,
      Block.boundBy_of_parse hparse name function arguments offset hnode, hbefore, hcall, hrun,
      ⟨trace, ?_, hsucceeds⟩, rfl, rfl, Block.callAt_of_parse hparse hnode⟩
    rw [hevents, htrace]
    rfl

/-- A call inside a branch fails, behind an assignment and a call that do not; the
assignment behind the branch is not made. -/
theorem Script.execute_failure_inside_branch :
    let note : HostFunction := ⟨false, fun _ _ store => (.ok .null, store)⟩
    let stop : HostFunction := ⟨false, fun _ _ store => (.error "halt", store.insert "y" .null)⟩
    let source := "x='a';if(x)\x7bnote(x);stop (x)\x7d;x='b'"
    ∃ code, Script.compile (.ofList [("note", note), ("stop", stop)]) source (some 4) = .ok code ∧
      ∀ draws,
        let run := code.execute (some 4) ⟨.empty, draws, 0, []⟩
        run.failure = some ⟨⟨"stop", "halt"⟩, ⟨some 4, some 0, some 20⟩⟩ ∧
        run.machine.store.entries = [("x", .str "a"), ("y", .null)] ∧
        ∃ path name message offset m,
          Machine.Performs ⟨.empty, draws, 0, []⟩ path m ∧
          CallFailure.text ⟨"stop", "halt"⟩ =
            "Execution of " ++ name ++ "() failed with " ++ message ∧
          (⟨some 4, some 0, some 20⟩ : Position) = .ofOffset source.toList offset (some 4) ∧
          CallAt source.toList offset name := by
  intro note stop source
  let x : Plan := ⟨[⟨none, none, some (.variable "x")⟩]⟩
  have hcode : Script.compile (.ofList [("note", note), ("stop", stop)]) source (some 4) =
      .ok ⟨source, .cons (.assign "x" ⟨[⟨none, none, some (.literal (.str "a"))⟩]⟩ 0)
        (.cons (.branch x (.cons (.call "note" note [x] 12) (.cons (.call "stop" stop [x] 20) .nil))
          .nothing 6)
        (.cons (.assign "x" ⟨[⟨none, none, some (.literal (.str "b"))⟩]⟩ 30) .nil))⟩ := by cbv
  refine ⟨_, hcode, fun draws => ?_⟩
  intro run
  have hfailed : run.failure = some ⟨⟨"stop", "halt"⟩, ⟨some 4, some 0, some 20⟩⟩ := by cbv
  have hstore : run.machine.store.entries = [("x", .str "a"), ("y", .null)] := by cbv
  obtain ⟨path, name, _, _, offset, message, m, _, _, hperforms, _, _, _, htext, hposition, hcall⟩ :=
    Script.execute_failure hcode (some 4) .empty draws hfailed
  exact ⟨hfailed, hstore, path, name, message, offset, m, hperforms, htext, hposition, hcall⟩

end DialogueScript
