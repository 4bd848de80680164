import DialogueScript.Proofs.Sequencing

/-!
# What a script reads and writes

A script reads the variables that occur in its expressions and writes the targets of its
assignments; the rest of the store has no influence on it and is not touched by it. This
holds for scripts whose host functions leave the store alone and fail or not by their
arguments only.

Two runs from stores that agree on what the script reads are followed in concert. They
leave the same trace, up to the values that host functions answer, and a trace determines
what has become of the store.

Main statements:
1. `Plan.evaluate_congr`: an expression depends on the variables that occur in it.
2. `Block.execute_inConcert`: two runs of a block leave the same trace and end alike.
3. `Script.execute_noninterference`: what follows for a compiled script.
-/

namespace DialogueScript

/-! ## Variables of an expression -/

def Operand.name? : Option Operand → Option String
  | some (.variable name) => some name
  | _ => none

def Step.variableNames (s : Step) : List String :=
  (Operand.name? s.left).toList ++ (Operand.name? s.right).toList

def Store.AgreeOn (names : List String) (store store' : Store) : Prop :=
  ∀ name ∈ names, store.get name = store'.get name

theorem Store.AgreeOn.mono {names more : List String} {store store' : Store}
    (h : Store.AgreeOn more store store') (hsub : names ⊆ more) :
    Store.AgreeOn names store store' :=
  fun name hname => h name (hsub hname)

theorem Operand.read_congr {store store' : Store} {operand : Option Operand}
    (h : Store.AgreeOn (Operand.name? operand).toList store store') :
    Operand.read store operand = Operand.read store' operand := by
  match operand with
  | none => rfl
  | some (.literal _) => rfl
  | some (.result _) => rfl
  | some (.variable name) => exact h name List.mem_cons_self

theorem Step.value_congr {store store' : Store} {s : Step}
    (h : Store.AgreeOn s.variableNames store store') : s.value store = s.value store' := by
  have hleft := Operand.read_congr (h.mono (List.subset_append_left _ _))
  have hright := Operand.read_congr (h.mono (List.subset_append_right _ _))
  unfold Step.value
  rw [hleft, hright]

namespace Plan

def variableNames (steps : List Step) : List String := steps.flatMap Step.variableNames

/-- A result is delivered to a slot that names no variable. -/
theorem variableNames_deliver (index : Nat) (result : Value) (steps : List Step) :
    variableNames (deliver index result steps) = variableNames steps := by
  induction steps with
  | nil => rfl
  | cons s rest ih =>
    obtain ⟨operator, left, right⟩ := s
    rw [deliver]
    split
    · next hleft =>
      cases hleft
      rfl
    split
    · next hright =>
      cases hright
      rfl
    · exact congrArg (Step.variableNames ⟨operator, left, right⟩ ++ ·) ih

theorem runFrom_congr {store store' : Store} {index : Nat} {steps : List Step}
    (h : Store.AgreeOn (variableNames steps) store store') :
    runFrom store index steps = runFrom store' index steps := by
  fun_induction runFrom store index steps with
  | case1 index => rw [runFrom]
  | case2 index last =>
    rw [runFrom]
    exact Step.value_congr (h.mono (List.subset_append_left _ _))
  | case3 index s next rest ih =>
    have hs : s.value store = s.value store' :=
      Step.value_congr (h.mono (List.subset_append_left _ _))
    rw [runFrom, ← hs]
    refine ih ?_
    rw [variableNames_deliver]
    exact h.mono (List.subset_append_right _ _)

/-- An expression has the same value in stores that agree on its variables. -/
theorem evaluate_congr {store store' : Store} {p : Plan}
    (h : Store.AgreeOn (variableNames p.steps) store store') :
    p.evaluate store = p.evaluate store' :=
  runFrom_congr h

end Plan

/-! ## Names of a block -/

def Node.plans {φ : Type} : Node φ → List Plan
  | .assign _ value _ => [value]
  | .call _ _ arguments _ => arguments
  | .branch condition _ => [condition]
  | .elseIf condition => [condition]
  | .otherwise => []

def Node.target? {φ : Type} : Node φ → Option String
  | .assign target _ _ => some target
  | _ => none

/-- The variables that occur in the expressions of a block. -/
def Block.reads {φ : Type} (b : Block φ) : List String :=
  b.nodes.flatMap fun node => node.plans.flatMap fun p => Plan.variableNames p.steps

/-- The variables that a block assigns. -/
def Block.writes {φ : Type} (b : Block φ) : List String := b.nodes.filterMap Node.target?

/-! ## Host functions apart from the store -/

def Reply.message? : Reply → Option String
  | .ok _ => none
  | .error message => some message

/-- The function leaves the store as it is, and whether and with which message it fails
depends on its arguments only. The value that it answers may depend on anything. -/
structure HostFunction.Isolated (f : HostFunction) : Prop where
  keeps_store : ∀ draw arguments store, (f.run draw arguments store).2 = store
  message_eq : ∀ draw draw' arguments store store',
    Reply.message? (f.run draw arguments store).1 = Reply.message? (f.run draw' arguments store').1

/-- The function answers a value, whatever it is given, and hands the store back. -/
def HostFunction.Answers (f : HostFunction) : Prop :=
  ∀ draw arguments store, ∃ value, f.run draw arguments store = (.ok value, store)

/-- A function that always answers and hands the store back is apart from it. -/
theorem HostFunction.Answers.isolated {f : HostFunction} (h : f.Answers) : f.Isolated where
  keeps_store := fun draw arguments store => by
    obtain ⟨value, hrun⟩ := h draw arguments store
    rw [hrun]
  message_eq := fun draw draw' arguments store store' => by
    obtain ⟨value, hrun⟩ := h draw arguments store
    obtain ⟨value', hrun'⟩ := h draw' arguments store'
    rw [hrun, hrun', Reply.message?, Reply.message?]

/-- The functions that come with the language always answer. -/
theorem Registry.answers_builtin {name : String} {function : HostFunction}
    (h : Registry.builtin.find? name = some function) : function.Answers := by
  unfold Registry.builtin NameTable.ofList at h
  rw [List.foldl_cons, List.foldl_cons, List.foldl_nil, NameTable.find?_insert,
    NameTable.find?_insert, NameTable.find?_empty] at h
  split at h
  · cases h
    exact fun _ _ _ => ⟨_, rfl⟩
  split at h
  · cases h
    exact fun _ _ _ => ⟨_, rfl⟩
  · exact nomatch h

/-- The functions that come with the language are apart from the store. -/
theorem Registry.isolated_builtin {name : String} {function : HostFunction}
    (h : Registry.builtin.find? name = some function) : function.Isolated :=
  (Registry.answers_builtin h).isolated

/-! ## Traces -/

namespace Event

/-- An event without the value that a host function answered. -/
def withoutAnswer : Event → Event
  | .assigned name value => .assigned name value
  | .called name builtin arguments reply =>
    .called name builtin arguments (reply.map fun _ => .undefined)

def call? : Event → Option (String × List Value)
  | .assigned _ _ => none
  | .called name _ arguments _ => some (name, arguments)

def target? : Event → Option String
  | .assigned name _ => some name
  | .called _ _ _ _ => none

def calls (events : List Event) : List (String × List Value) := events.filterMap call?

def targets (events : List Event) : List String := events.filterMap target?

@[simp]
theorem targets_assigned (name : String) (value : Value) (rest : List Event) :
    targets (.assigned name value :: rest) = name :: targets rest := rfl

@[simp]
theorem targets_called (name : String) (builtin : Bool) (arguments : List Value)
    (reply : Reply) (rest : List Event) :
    targets (.called name builtin arguments reply :: rest) = targets rest := rfl

/-- The value is what a trace last assigned to a variable. -/
def LastAssigned (trace : List Event) (name : String) (value : Value) : Prop :=
  ∃ before after, trace = before ++ .assigned name value :: after ∧ name ∉ targets after

theorem lastAssigned_cons {e : Event} {rest : List Event} {name : String} {value : Value} :
    LastAssigned (e :: rest) name value ↔
      (e = .assigned name value ∧ name ∉ targets rest) ∨ LastAssigned rest name value := by
  constructor
  · rintro ⟨before, after, htrace, hnot⟩
    cases before with
    | nil =>
      cases htrace
      exact Or.inl ⟨rfl, hnot⟩
    | cons e' before =>
      cases htrace
      exact Or.inr ⟨before, after, rfl, hnot⟩
  · rintro (⟨rfl, hnot⟩ | ⟨before, after, rfl, hnot⟩)
    · exact ⟨[], rest, rfl, hnot⟩
    · exact ⟨e :: before, after, rfl, hnot⟩

theorem mem_targets_iff {trace : List Event} {name : String} :
    name ∈ targets trace ↔ ∃ value, LastAssigned trace name value := by
  induction trace with
  | nil => simp [targets, LastAssigned]
  | cons e rest ih =>
    simp only [lastAssigned_cons, exists_or, ← ih]
    cases e with
    | called key builtin arguments reply => simp
    | assigned key value =>
      by_cases hmem : name ∈ targets rest
      · simp [hmem]
      · simp [hmem, eq_comm]

/-- What does not depend on the answers is the same in traces that differ in answers
only. -/
theorem filterMap_congr {β : Type} {f : Event → Option β} (hf : ∀ e, f e.withoutAnswer = f e)
    {trace trace' : List Event} (h : trace.map withoutAnswer = trace'.map withoutAnswer) :
    trace.filterMap f = trace'.filterMap f := by
  have hmap : f ∘ withoutAnswer = f := funext hf
  calc trace.filterMap f = (trace.map withoutAnswer).filterMap f := by rw [List.filterMap_map, hmap]
    _ = (trace'.map withoutAnswer).filterMap f := by rw [h]
    _ = trace'.filterMap f := by rw [List.filterMap_map, hmap]

theorem calls_congr {trace trace' : List Event}
    (h : trace.map withoutAnswer = trace'.map withoutAnswer) : calls trace = calls trace' := by
  refine filterMap_congr (fun e => ?_) h
  cases e with
  | assigned name value => rfl
  | called name builtin arguments reply => rfl

theorem targets_congr {trace trace' : List Event}
    (h : trace.map withoutAnswer = trace'.map withoutAnswer) : targets trace = targets trace' := by
  refine filterMap_congr (fun e => ?_) h
  cases e with
  | assigned name value => rfl
  | called name builtin arguments reply => rfl

end Event

/-- The store after the assignments of a trace. -/
def Store.replay (store : Store) : List Event → Store
  | [] => store
  | .assigned name value :: rest => Store.replay (store.insert name value) rest
  | .called _ _ _ _ :: rest => Store.replay store rest

namespace Store

theorem replay_append (store : Store) (trace more : List Event) :
    store.replay (trace ++ more) = Store.replay (store.replay trace) more := by
  induction trace generalizing store with
  | nil => rfl
  | cons e rest ih =>
    cases e with
    | assigned name value => exact ih _
    | called name builtin arguments reply => exact ih _

theorem replay_map_withoutAnswer (store : Store) (trace : List Event) :
    store.replay (trace.map Event.withoutAnswer) = store.replay trace := by
  induction trace generalizing store with
  | nil => rfl
  | cons e rest ih =>
    cases e with
    | assigned name value => exact ih _
    | called name builtin arguments reply => exact ih _

/-- The answers of host functions have no part in what becomes of a store. -/
theorem replay_congr {trace trace' : List Event}
    (h : trace.map Event.withoutAnswer = trace'.map Event.withoutAnswer) (store : Store) :
    store.replay trace = store.replay trace' := by
  rw [← replay_map_withoutAnswer, h, replay_map_withoutAnswer]

theorem AgreeOn.replay {names : List String} {store store' : Store}
    (h : Store.AgreeOn names store store') (trace : List Event) :
    Store.AgreeOn names (store.replay trace) (store'.replay trace) := by
  induction trace generalizing store store' with
  | nil => exact h
  | cons e rest ih =>
    cases e with
    | called name builtin arguments reply => exact ih h
    | assigned name value =>
      refine ih fun key hkey => ?_
      rw [get_insert, get_insert, h key hkey]

/-- After a trace a variable has the value last assigned to it, or the one from before if it
was not assigned. -/
theorem find?_replay_iff (store : Store) (trace : List Event) {name : String} {value : Value} :
    (store.replay trace).find? name = some value ↔
      Event.LastAssigned trace name value ∨
        (name ∉ Event.targets trace ∧ store.find? name = some value) := by
  induction trace generalizing store with
  | nil => simp [replay, Event.LastAssigned, Event.targets]
  | cons e rest ih =>
    rw [Event.lastAssigned_cons]
    cases e with
    | called key builtin arguments reply =>
      rw [replay, ih, Event.targets_called]
      simp
    | assigned key other =>
      rw [replay, ih, NameTable.find?_insert, Event.targets_assigned, List.mem_cons]
      by_cases hkey : name = key
      · subst hkey
        simp [and_comm, or_comm]
      · simp [hkey, Ne.symm hkey]

/-- A variable that a trace does not assign keeps its value, and one that it assigns ends
with the same value in whatever store. -/
theorem find?_replay (name : String) (trace : List Event) :
    (name ∉ Event.targets trace ∧
      ∀ store : Store, (store.replay trace).find? name = store.find? name) ∨
    (name ∈ Event.targets trace ∧
      ∃ value, ∀ store : Store, (store.replay trace).find? name = some value) := by
  by_cases hmem : name ∈ Event.targets trace
  · obtain ⟨value, hlast⟩ := Event.mem_targets_iff.mp hmem
    exact Or.inr ⟨hmem, value, fun store => (find?_replay_iff store trace).mpr (Or.inl hlast)⟩
  · refine Or.inl ⟨hmem, fun store => Option.ext fun value => ?_⟩
    have hnone : ¬Event.LastAssigned trace name value := fun hlast =>
      hmem (Event.mem_targets_iff.mpr ⟨value, hlast⟩)
    rw [find?_replay_iff]
    simp [hmem, hnone]

end Store

/-! ## Two runs in concert -/

/-- The trace was left on the way from one machine to another, and the store changed by
its assignments alone. -/
structure Machine.Ran (m : Machine) (trace : List Event) (after : Machine) : Prop where
  events_eq : after.events = m.events ++ trace
  store_eq : after.store = m.store.replay trace

theorem Machine.Ran.trans {m middle after : Machine} {trace more : List Event}
    (h : m.Ran trace middle) (hmore : middle.Ran more after) : m.Ran (trace ++ more) after where
  events_eq := by rw [hmore.events_eq, h.events_eq, List.append_assoc]
  store_eq := by rw [hmore.store_eq, h.store_eq, Store.replay_append]

/-- Two runs end alike and leave the same trace, up to the values that host functions
answered, with assignments to the given variables only. -/
def Outcome.InConcert (writes : List String) (m m' : Machine) (o o' : Outcome) : Prop :=
  o.failure = o'.failure ∧ ∃ trace trace', m.Ran trace o.machine ∧ m'.Ran trace' o'.machine ∧
    trace.map Event.withoutAnswer = trace'.map Event.withoutAnswer ∧
    Event.targets trace ⊆ writes

namespace Outcome.InConcert

variable {reads writes : List String} {m m' : Machine} {o o' : Outcome}

theorem done (writes : List String) (m m' : Machine) :
    InConcert writes m m' ⟨none, m⟩ ⟨none, m'⟩ :=
  ⟨rfl, [], [], ⟨(List.append_nil _).symm, rfl⟩, ⟨(List.append_nil _).symm, rfl⟩, rfl,
    List.nil_subset _⟩

theorem assign (m m' : Machine) {target : String} (value : Value) (h : target ∈ writes) :
    InConcert writes m m' ⟨none, m.assign target value⟩ ⟨none, m'.assign target value⟩ :=
  ⟨rfl, [.assigned target value], [.assigned target value], ⟨rfl, rfl⟩, ⟨rfl, rfl⟩, rfl,
    List.cons_subset.mpr ⟨h, List.nil_subset _⟩⟩

/-- Runs in concert keep the stores in agreement. -/
theorem agreeOn (h : InConcert writes m m' o o') (hs : Store.AgreeOn reads m.store m'.store) :
    Store.AgreeOn reads o.machine.store o'.machine.store := by
  obtain ⟨-, trace, trace', hran, hran', htrace, -⟩ := h
  rw [hran.store_eq, hran'.store_eq, Store.replay_congr htrace.symm]
  exact hs.replay trace

theorem andThen {next : Machine → Outcome} (h : InConcert writes m m' o o')
    (hnext : InConcert writes o.machine o'.machine (next o.machine) (next o'.machine)) :
    InConcert writes m m' (o.andThen next) (o'.andThen next) := by
  obtain ⟨failure, middle⟩ := o
  obtain ⟨failure', middle'⟩ := o'
  obtain ⟨hfailure, trace, trace', hran, hran', htrace, htargets⟩ := h
  cases hfailure
  cases failure with
  | some e => exact ⟨rfl, trace, trace', hran, hran', htrace, htargets⟩
  | none =>
    obtain ⟨hend, more, more', hmore, hmore', htrace', htargets'⟩ := hnext
    refine ⟨hend, trace ++ more, trace' ++ more', hran.trans hmore, hran'.trans hmore', ?_, ?_⟩
    · rw [List.map_append, List.map_append, htrace, htrace']
    · rw [Event.targets, List.filterMap_append]
      exact List.append_subset.mpr ⟨htargets, htargets'⟩

end Outcome.InConcert

theorem Reply.map_eq_of_message? {reply reply' : Reply} (v : Value)
    (h : reply.message? = reply'.message?) :
    reply.map (fun _ => v) = reply'.map fun _ => v := by
  cases reply with
  | ok value =>
    cases reply' with
    | ok value' => rfl
    | error message' => exact nomatch h
  | error message =>
    cases reply' with
    | ok value' => exact nomatch h
    | error message' =>
      cases h
      rfl

theorem Statement.execute_call (m : Machine) (name : String) (function : HostFunction)
    (arguments : List Plan) (offset : Nat) :
    (Statement.call name function arguments offset).execute m =
      let answer := m.call name function (arguments.map fun a => a.evaluate m.store)
      ⟨(Reply.message? answer.1).map fun message => .atChar ⟨name, message⟩ offset, answer.2⟩ := by
  rw [Statement.execute]
  generalize m.call name function (arguments.map fun a => a.evaluate m.store) = answer
  obtain ⟨reply, after⟩ := answer
  cases reply with
  | ok value => rfl
  | error message => rfl

/-- A call of a function that is apart from the store leaves one event behind. -/
theorem Machine.ran_call {function : HostFunction} (h : function.Isolated) (m : Machine)
    (name : String) (arguments : List Value) :
    m.Ran [.called name function.builtin arguments (m.call name function arguments).1]
      (m.call name function arguments).2 :=
  ⟨rfl, h.keeps_store (m.draws m.calls) arguments m.store⟩

theorem Block.execute_cons (m : Machine) (head : Statement HostFunction)
    (tail : Block HostFunction) :
    (Block.cons head tail).execute m = (head.execute m).andThen tail.execute := by
  rw [Block.execute]
  rfl

/-- The node has no variables but the given ones, and the function that it calls, if any,
is apart from the store. -/
structure Node.Within (reads writes : List String) (node : Node HostFunction) : Prop where
  plans_subset : ∀ p ∈ node.plans, Plan.variableNames p.steps ⊆ reads
  target_mem : ∀ name, node.target? = some name → name ∈ writes
  isolated : ∀ name function arguments offset, node = .call name function arguments offset →
    function.Isolated

/-- The expressions of a node have the same values in stores that agree on what is read. -/
theorem Node.Within.evaluate_eq {reads writes : List String} {node : Node HostFunction}
    (h : node.Within reads writes) {store store' : Store} (hs : Store.AgreeOn reads store store')
    {p : Plan} (hp : p ∈ node.plans) : p.evaluate store = p.evaluate store' :=
  Plan.evaluate_congr (hs.mono (h.plans_subset p hp))

mutual

theorem Statement.execute_inConcert {reads writes : List String} {m m' : Machine}
    (hs : Store.AgreeOn reads m.store m'.store) : (s : Statement HostFunction) →
    (∀ node ∈ s.nodes, node.Within reads writes) →
    Outcome.InConcert writes m m' (s.execute m) (s.execute m')
  | .assign target value offset, h => by
    have hnode := h _ List.mem_cons_self
    have hvalue := hnode.evaluate_eq hs List.mem_cons_self
    rw [Statement.execute, Statement.execute, hvalue]
    exact .assign m m' _ (hnode.target_mem target rfl)
  | .call name function arguments offset, h => by
    have hnode := h _ List.mem_cons_self
    have hfunction := hnode.isolated name function arguments offset rfl
    have hvalues : arguments.map (fun a => a.evaluate m.store) =
        arguments.map fun a => a.evaluate m'.store :=
      List.map_congr_left fun a ha => hnode.evaluate_eq hs ha
    rw [Statement.execute_call, Statement.execute_call, hvalues]
    generalize arguments.map (fun a => a.evaluate m'.store) = values
    have hmessage : Reply.message? (m.call name function values).1 =
        Reply.message? (m'.call name function values).1 := hfunction.message_eq _ _ _ _ _
    -- The replies may differ in the value answered, but not in what an event keeps of them.
    refine ⟨congrArg (Option.map _) hmessage, _, _, Machine.ran_call hfunction m name values,
      Machine.ran_call hfunction m' name values, ?_, List.nil_subset _⟩
    rw [List.map_singleton, List.map_singleton, Event.withoutAnswer, Event.withoutAnswer,
      Reply.map_eq_of_message? _ hmessage]
  | .branch condition body otherwise offset, h => by
    have hcondition := (h _ List.mem_cons_self).evaluate_eq hs List.mem_cons_self
    have hinner := fun node hn => h node (List.mem_cons_of_mem _ hn)
    rw [Statement.execute, Statement.execute, hcondition]
    split
    · exact body.execute_inConcert hs fun node hn => hinner node (List.mem_append_left _ hn)
    · exact otherwise.execute_inConcert hs fun node hn => hinner node (List.mem_append_right _ hn)

/-- Two runs of a block from stores that agree on what it reads are in concert. -/
theorem Block.execute_inConcert {reads writes : List String} {m m' : Machine}
    (hs : Store.AgreeOn reads m.store m'.store) : (b : Block HostFunction) →
    (∀ node ∈ b.nodes, node.Within reads writes) →
    Outcome.InConcert writes m m' (b.execute m) (b.execute m')
  | .nil, _ => .done writes m m'
  | .cons head tail, h => by
    have hhead := head.execute_inConcert hs fun node hn => h node (List.mem_append_left _ hn)
    rw [Block.execute_cons, Block.execute_cons]
    exact hhead.andThen (tail.execute_inConcert (hhead.agreeOn hs)
      fun node hn => h node (List.mem_append_right _ hn))

theorem Otherwise.execute_inConcert {reads writes : List String} {m m' : Machine}
    (hs : Store.AgreeOn reads m.store m'.store) : (o : Otherwise HostFunction) →
    (∀ node ∈ o.nodes, node.Within reads writes) →
    Outcome.InConcert writes m m' (o.execute m) (o.execute m')
  | .nothing, _ => .done writes m m'
  | .block body, h => body.execute_inConcert hs fun node hn => h node (List.mem_cons_of_mem _ hn)
  | .elseIf condition body otherwise, h => by
    have hcondition := (h _ List.mem_cons_self).evaluate_eq hs List.mem_cons_self
    have hinner := fun node hn => h node (List.mem_cons_of_mem _ hn)
    rw [Otherwise.execute, Otherwise.execute, hcondition]
    split
    · exact body.execute_inConcert hs fun node hn => hinner node (List.mem_append_left _ hn)
    · exact otherwise.execute_inConcert hs fun node hn => hinner node (List.mem_append_right _ hn)

end

/-! ## Scripts -/

/-- A block that is bound to functions apart from the store reads and writes no variable
that it does not name. -/
theorem Block.BoundBy.within {registry : Registry}
    (hisolated : ∀ name function, registry.find? name = some function → function.Isolated)
    {b : Block HostFunction} (hb : b.BoundBy registry) :
    ∀ n ∈ b.nodes, n.Within b.reads b.writes := by
  intro n hn
  exact {
    plans_subset := fun p hp name hname =>
      List.mem_flatMap.mpr ⟨n, hn, List.mem_flatMap.mpr ⟨p, hp, hname⟩⟩
    target_mem := fun name hname => List.mem_filterMap.mpr ⟨n, hn, hname⟩
    isolated := fun name function arguments offset heq =>
      hisolated name function (hb name function arguments offset (heq ▸ hn)) }

theorem Script.within_of_compile {registry : Registry}
    (hisolated : ∀ name function, registry.find? name = some function → function.Isolated)
    {source : String} {node : Option Nat} {code : Script}
    (h : Script.compile registry source node = .ok code) :
    ∀ n ∈ code.root.nodes, n.Within code.root.reads code.root.writes :=
  (Block.boundBy_of_parse (Script.parse_of_compile h).2).within hisolated

/-- A compiled script whose host functions are apart from the store runs the same way from
two stores that agree on the variables of its expressions, whatever the draws: it ends
alike, and calls the same functions with the same arguments. A variable is assigned in
neither run and keeps its value in both, or is assigned in both and ends with the same
value; the former holds for each that is no target of the script. -/
theorem Script.execute_noninterference {registry : Registry}
    (hisolated : ∀ name function, registry.find? name = some function → function.Isolated)
    {source : String} {node : Option Nat} {code : Script}
    (h : Script.compile registry source node = .ok code) {store store' : Store}
    (hs : Store.AgreeOn code.root.reads store store') (node' : Option Nat)
    (draws draws' : Nat → Float) :
    let run := code.execute node' ⟨store, draws, 0, []⟩
    let run' := code.execute node' ⟨store', draws', 0, []⟩
    run.failure = run'.failure ∧
    Event.calls run.machine.events = Event.calls run'.machine.events ∧
    (∀ name,
      (name ∉ Event.targets run.machine.events ∧ name ∉ Event.targets run'.machine.events ∧
        run.machine.store.find? name = store.find? name ∧
        run'.machine.store.find? name = store'.find? name) ∨
      (name ∈ Event.targets run.machine.events ∧ name ∈ Event.targets run'.machine.events ∧
        ∃ value, run.machine.store.find? name = some value ∧
          run'.machine.store.find? name = some value)) ∧
    ∀ name, name ∉ code.root.writes →
      run.machine.store.find? name = store.find? name ∧
      run'.machine.store.find? name = store'.find? name := by
  intro run run'
  let m : Machine := ⟨store, draws, 0, []⟩
  let m' : Machine := ⟨store', draws', 0, []⟩
  have hrun :
      Outcome.InConcert code.root.writes m m' (code.root.execute m) (code.root.execute m') :=
    code.root.execute_inConcert hs (Script.within_of_compile hisolated h)
  obtain ⟨hfailure, trace, trace', hran, hran', htrace, hwrites⟩ := hrun
  have hevents : run.machine.events = trace := hran.events_eq
  have hevents' : run'.machine.events = trace' := hran'.events_eq
  have hstore : run.machine.store = store.replay trace := hran.store_eq
  have hstore' : run'.machine.store = store'.replay trace :=
    hran'.store_eq.trans (Store.replay_congr htrace.symm _)
  rw [hevents, hevents', hstore, hstore', ← Event.targets_congr htrace]
  refine ⟨congrArg (Option.map _) hfailure, Event.calls_congr htrace, fun name => ?_,
    fun name hname => ?_⟩
  · rcases Store.find?_replay name trace with ⟨hnot, hkeep⟩ | ⟨hmem, value, hlast⟩
    · exact Or.inl ⟨hnot, hnot, hkeep store, hkeep store'⟩
    · exact Or.inr ⟨hmem, hmem, value, hlast store, hlast store'⟩
  · rcases Store.find?_replay name trace with ⟨-, hkeep⟩ | ⟨hmem, -⟩
    · exact ⟨hkeep store, hkeep store'⟩
    · exact absurd (hwrites hmem) hname

/-- A branch and a call, from a store that also has a target of the script and a variable
that the script does not name, and from one that has neither. -/
theorem Script.execute_noninterference_branch_and_call :
    ∃ code,
      Script.compile Registry.builtin "if(a)\x7bx=b\x7delse\x7by=b\x7d;rand(a)" none = .ok code ∧
      code.root.reads = ["a", "b", "b", "a"] ∧ code.root.writes = ["x", "y"] ∧
      ∀ draws draws',
        let store : Store := .ofList [("a", .bool true), ("x", .null), ("z", .bool false)]
        let run := code.execute none ⟨store, draws, 0, []⟩
        let run' := code.execute none ⟨.ofList [("a", .bool true)], draws', 0, []⟩
        run.failure = run'.failure ∧
        Event.calls run.machine.events = Event.calls run'.machine.events ∧
        run.machine.store.find? "z" = some (.bool false) ∧
        run'.machine.store.find? "z" = none := by
  let a : Plan := ⟨[⟨none, none, some (.variable "a")⟩]⟩
  let b : Plan := ⟨[⟨none, none, some (.variable "b")⟩]⟩
  have hcode : Script.compile Registry.builtin "if(a)\x7bx=b\x7delse\x7by=b\x7d;rand(a)" none =
      .ok ⟨"if(a)\x7bx=b\x7delse\x7by=b\x7d;rand(a)", .cons
        (.branch a (.cons (.assign "x" b 6) .nil) (.block (.cons (.assign "y" b 15) .nil)) 0)
        (.cons (.call "rand" HostFunction.rand [a] 20) .nil)⟩ := by cbv
  refine ⟨_, hcode, rfl, rfl, fun draws draws' => ?_⟩
  have hs : Store.AgreeOn ["a", "b", "b", "a"]
      (.ofList [("a", .bool true), ("x", .null), ("z", .bool false)])
      (.ofList [("a", .bool true)]) := by
    intro name hname
    simp only [List.mem_cons, List.not_mem_nil, or_false] at hname
    rcases hname with rfl | rfl | rfl | rfl
    all_goals cbv
  obtain ⟨hfailure, hcalls, -, hkeep⟩ := Script.execute_noninterference
    (fun _ _ => Registry.isolated_builtin) hcode hs none draws draws'
  have hz : "z" ∉ ["x", "y"] := by decide
  exact ⟨hfailure, hcalls, (hkeep "z" hz).1.trans (by cbv), (hkeep "z" hz).2.trans (by cbv)⟩

end DialogueScript
