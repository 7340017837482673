import Clausal.Proofs.RoomIndependence

/-!
# Clients of assignments

A client knows an assignment by the calls that it makes and the answers that it gets, and can put
copies of it aside.  An assignment in slots and the assignment that it lists serve a client alike
(`run_toAssignment`), and the number of slots to start with makes no difference to what the client
comes to (`result_run_ofCount`).

Propagation, the search and elimination are clients.  So on slots they come to what they come to
on assignments (`clients_on_slots`).
-/

set_option autoImplicit false

namespace Clausal

inductive Client (α : Type)
  | done (result : α)
  | ask (next : Assignment.Answers → Client α)
  | call (made : Assignment.Call) (next : Option Fault → Client α)
  /-- Puts a copy of the assignment aside. -/
  | save (next : Client α)
  /-- Changes places with the assignment put aside last. -/
  | exchange (next : Client α)
  /-- Goes on with the assignment put aside last, in place of the present one. -/
  | restore (next : Client α)

structure Server (σ : Type) where
  perform : σ → Assignment.Call → σ × Option Fault
  answers : σ → Assignment.Answers

def Slots.server : Server Slots := ⟨Slots.perform, Slots.answers⟩

def Assignment.server : Server Assignment := ⟨Assignment.perform, Assignment.answers⟩

/-- The present assignment, those put aside, and what the client came to. -/
structure Served (σ α : Type) where
  present : σ
  aside : List σ
  result : α

def Served.map {σ τ α : Type} (view : σ → τ) (served : Served σ α) : Served τ α :=
  ⟨view served.present, served.aside.map view, served.result⟩

namespace Client

section Run

variable {σ τ α β : Type}

def run (server : Server σ) : Client α → σ → List σ → Served σ α
  | .done result, present, aside => ⟨present, aside, result⟩
  | .ask next, present, aside => (next (server.answers present)).run server present aside
  | .call made next, present, aside =>
      let step := server.perform present made
      (next step.2).run server step.1 aside
  | .save next, present, aside => next.run server present (present :: aside)
  | .exchange next, present, aside =>
      match aside with
      | [] => next.run server present []
      | last :: others => next.run server last (present :: others)
  | .restore next, present, aside =>
      match aside with
      | [] => next.run server present []
      | last :: others => next.run server last others

def bind (client : Client α) (next : α → Client β) : Client β :=
  match client with
  | .done result => next result
  | .ask rest => .ask fun answers => (rest answers).bind next
  | .call made rest => .call made fun fault => (rest fault).bind next
  | .save rest => .save (rest.bind next)
  | .exchange rest => .exchange (rest.bind next)
  | .restore rest => .restore (rest.bind next)

/-- Puts the assignment with the variable false aside and goes on with the one where it is true. -/
def branch (v : Var) (next : Option Fault → Client α) : Client α :=
  .save <| .call (.assignVar v false) fun
    | some fault => next (some fault)
    | none => .exchange <| .call (.assignVar v true) next

theorem run_bind (server : Server σ) (client : Client α) (next : α → Client β) (present : σ)
    (aside : List σ) :
    (client.bind next).run server present aside =
      let first := client.run server present aside
      (next first.result).run server first.present first.aside := by
  induction client generalizing present aside with
  | done result => rfl
  | ask rest inductionHypothesis =>
      exact inductionHypothesis (server.answers present) present aside
  | call made rest inductionHypothesis =>
      exact inductionHypothesis (server.perform present made).2 _ aside
  | save rest inductionHypothesis => exact inductionHypothesis present _
  | exchange rest inductionHypothesis =>
      cases aside with
      | nil => exact inductionHypothesis present []
      | cons last others => exact inductionHypothesis last _
  | restore rest inductionHypothesis =>
      cases aside with
      | nil => exact inductionHypothesis present []
      | cons last others => exact inductionHypothesis last others

/-- A view of the state that keeps the answers and commutes with calls commutes with clients. -/
theorem run_view {server : Server σ} {other : Server τ} {view : σ → τ}
    (answers : ∀ state, other.answers (view state) = server.answers state)
    (performs : ∀ state call,
      other.perform (view state) call = (server.perform state call).map view id)
    (client : Client α) (present : σ) (aside : List σ) :
    client.run other (view present) (aside.map view) =
      (client.run server present aside).map view := by
  induction client generalizing present aside with
  | done result => rfl
  | ask next inductionHypothesis =>
      rw [run, run, answers]
      exact inductionHypothesis _ present aside
  | call made next inductionHypothesis =>
      rw [run, run, performs]
      exact inductionHypothesis _ _ aside
  | save next inductionHypothesis => exact inductionHypothesis present (present :: aside)
  | exchange next inductionHypothesis =>
      cases aside with
      | nil => exact inductionHypothesis present []
      | cons last others => exact inductionHypothesis last (present :: others)
  | restore next inductionHypothesis =>
      cases aside with
      | nil => exact inductionHypothesis present []
      | cons last others => exact inductionHypothesis last others

/-- Slots serve a client as the assignments that they list do. -/
theorem run_toAssignment (client : Client α) (slots : Slots) (aside : List Slots) :
    client.run Assignment.server slots.toAssignment (aside.map Slots.toAssignment) =
      (client.run Slots.server slots aside).map Slots.toAssignment :=
  run_view Slots.answers_toAssignment Slots.toAssignment_perform client slots aside

theorem run_roomier (client : Client α) (room : Nat) (assignment : Assignment) :
    client.run Assignment.server (assignment.roomier room) [] =
      (client.run Assignment.server assignment []).map (·.roomier room) :=
  @run_view _ _ _ Assignment.server Assignment.server (·.roomier room)
    (fun state => state.answers_roomier room) (fun state => state.perform_roomier room) client
    assignment []

/-- The number of slots that there are to start with does not show. -/
theorem result_run_ofCount (client : Client α) (count : Nat) :
    (client.run Slots.server (.ofCount count) []).result =
      (client.run Assignment.server (.withRoom 0) []).result := by
  have listed := client.run_toAssignment (.ofCount count) []
  rw [Slots.toAssignment_ofCount, Assignment.withRoom_eq_roomier, List.map_nil,
    run_roomier] at listed
  exact (congrArg Served.result listed).symm

theorem run_ask_assignment (next : Assignment.Answers → Client α) (assignment : Assignment)
    (aside : List Assignment) :
    (Client.ask next).run Assignment.server assignment aside =
      (next assignment.answers).run Assignment.server assignment aside := rfl

theorem run_assign (l : Lit) (next : Option Fault → Client α) (assignment : Assignment)
    (aside : List Assignment) :
    (Client.call (.assign l) next).run Assignment.server assignment aside =
      match assignment.assign l with
      | .ok after => (next none).run Assignment.server after aside
      | .error fault => (next (some fault)).run Assignment.server assignment aside := by
  show (let step := afterCall assignment (assignment.assign l)
    (next step.2).run Assignment.server step.1 aside) = _
  cases assignment.assign l <;> rfl

theorem run_assignVar (v : Var) (polarity : Bool) (next : Option Fault → Client α)
    (assignment : Assignment) (aside : List Assignment) :
    (Client.call (.assignVar v polarity) next).run Assignment.server assignment aside =
      match assignment.assignVar v polarity with
      | .ok after => (next none).run Assignment.server after aside
      | .error fault => (next (some fault)).run Assignment.server assignment aside :=
  run_assign (v.lit polarity) next assignment aside

theorem run_branch (v : Var) (next : Option Fault → Client α) (assignment : Assignment)
    (aside : List Assignment) :
    (branch v next).run Assignment.server assignment aside =
      match assignment.assignVar v false, assignment.assignVar v true with
      | .ok whenFalse, .ok whenTrue =>
          (next none).run Assignment.server whenTrue (whenFalse :: aside)
      | .error fault, _ =>
          (next (some fault)).run Assignment.server assignment (assignment :: aside)
      | .ok whenFalse, .error fault =>
          (next (some fault)).run Assignment.server assignment (whenFalse :: aside) := by
  rw [branch, run, run_assignVar]
  cases assignment.assignVar v false with
  | error fault => rfl
  | ok whenFalse =>
      show (Client.call (.assignVar v true) next).run _ assignment (whenFalse :: aside) = _
      rw [run_assignVar]
      cases assignment.assignVar v true <;> rfl

end Run

end Client

namespace Served

variable {σ τ α : Type}

def withPresent (served : Served σ (Run α)) : Run (α × σ) :=
  served.result.map (·, served.present)

/-- The assignment that a procedure leaves, if its answer is that this is a model. -/
def found (served : Served σ (Run Bool)) : Run (Option σ) :=
  served.result.map fun isModel => if isModel then some served.present else none

def changed (served : Served σ (Except Fault Unit)) : Except Fault σ :=
  served.result.map fun _ => served.present

theorem withPresent_map (view : σ → τ) (served : Served σ (Run α)) :
    (served.map view).withPresent = served.withPresent.map (Prod.map id view) := by
  obtain ⟨present, aside, progress, result⟩ := served
  cases result <;> rfl

theorem found_map (view : σ → τ) (served : Served σ (Run Bool)) :
    (served.map view).found = served.found.map (Option.map view) := by
  obtain ⟨present, aside, progress, result⟩ := served
  cases result with
  | error fault => rfl
  | ok isModel => cases isModel <;> rfl

end Served

/-! ## Propagation -/

section Propagation

variable (clauses : List (List Lit)) (pureLiterals : Bool)

def Assignment.Answers.reduce? (answers : Assignment.Answers) :
    List (List Lit) → Option (List (List Lit))
  | [] => some []
  | clause :: rest =>
      if clause.any answers.isTrue then answers.reduce? rest
      else
        match clause.filter fun l => !answers.isFalse l with
        | [] => none
        | l :: lits => (answers.reduce? rest).map ((l :: lits) :: ·)

def Assignment.Answers.nextStep (answers : Assignment.Answers) : Step :=
  match answers.reduce? clauses with
  | none => .conflict
  | some residual =>
      match residual.findSome? unitLit? with
      | some l => .force .unit l
      | none =>
          match if pureLiterals then pureLit? residual else none with
          | some l => .force .pure l
          | none =>
              match residual.flatten with
              | [] => .satisfied
              | l :: _ => .branch l

theorem reduce?_answers (assignment : Assignment) :
    assignment.answers.reduce? clauses = reduce? assignment clauses := by
  induction clauses with
  | nil => rfl
  | cons clause rest inductionHypothesis =>
      rw [Assignment.Answers.reduce?, Clausal.reduce?, inductionHypothesis]
      rfl

theorem nextStep_answers (assignment : Assignment) :
    assignment.answers.nextStep clauses pureLiterals =
      nextStep clauses pureLiterals assignment := by
  rw [Assignment.Answers.nextStep, reduce?_answers]
  rfl

def propagateClient : Nat → Progress → Client (Run Propagation)
  | 0, progress => .done (.done progress .conflict)
  | steps + 1, progress => .ask fun answers =>
      match answers.nextStep clauses pureLiterals with
      | .conflict => .done (.done progress .conflict)
      | .satisfied => .done (.done progress .satisfied)
      | .branch l => .done (.done progress (.undecided l))
      | .force rule l => .call (.assign l) fun
          | some fault => .done (.stopped (progress.force rule l) fault)
          | none => propagateClient steps (progress.force rule l)

/-- Propagation, told by what the client comes to and the assignment that it leaves. -/
theorem run_propagateClient {clauses : List (List Lit)} {pureLiterals : Bool} {steps : Nat}
    {assignment : Assignment} (progress : Progress) (aside : List Assignment)
    (enough : openCount clauses assignment < steps) :
    let served := (propagateClient clauses pureLiterals steps progress).run Assignment.server
      assignment aside
    served.withPresent = propagate clauses pureLiterals assignment progress ∧
      served.aside = aside := by
  induction steps generalizing assignment progress with
  | zero => exact absurd enough (Nat.not_lt_zero _)
  | succ steps inductionHypothesis =>
      rw [propagate_step, propagateClient, Client.run_ask_assignment, nextStep_answers]
      cases step : nextStep clauses pureLiterals assignment with
      | conflict => exact ⟨rfl, rfl⟩
      | satisfied => exact ⟨rfl, rfl⟩
      | branch l => exact ⟨rfl, rfl⟩
      | force rule l =>
          simp only [Client.run_assign]
          cases assigned : assignment.assign l with
          | error fault => exact ⟨rfl, rfl⟩
          | ok next =>
              -- A forced literal was open, so fewer occurrences are open than steps are left.
              have occurs := (open_of_nextStep (.inl ⟨rule, step⟩)).1
              have fewer := openCount_assign_lt ⟨l, occurs, rfl⟩ assigned
              exact inductionHypothesis (progress.force rule l) (by omega)

end Propagation

/-! ## Search -/

section Search

variable (clauses : List (List Lit)) (pureLiterals : Bool)

/-- Visits at most so many nodes.  The nodes that wait are put aside, and the height is their
number. -/
def searchClient : Nat → Nat → Progress → Client (Run Bool)
  | 0, _, progress => .done (.done progress false)
  | visits + 1, height, progress =>
      (propagateClient clauses pureLiterals (clauses.flatten.length + 1) progress).bind fun
        | ⟨after, .error fault⟩ => .done (.stopped after fault)
        | ⟨after, .ok .conflict⟩ =>
            match height with
            | 0 => .done (.done after.conflict.exhausted false)
            | height + 1 => .restore (searchClient visits height after.conflict)
        | ⟨after, .ok .satisfied⟩ => .done (.done after.modelFound true)
        | ⟨after, .ok (.undecided l)⟩ =>
            let decided := after.decision l.var height
            .branch l.var fun
              | some fault => .done (.stopped decided fault)
              | none => searchClient visits (height + 1) decided

theorem run_searchClient {clauses : List (List Lit)} {pureLiterals : Bool} {visits : Nat}
    {node : Assignment} {waiting : List Assignment} (progress : Progress)
    (enough : stackWeight clauses (node :: waiting) < visits) :
    ((searchClient clauses pureLiterals visits waiting.length progress).run Assignment.server
      node waiting).found = searchFrom clauses pureLiterals (node :: waiting) progress := by
  induction visits generalizing node waiting progress with
  | zero => exact absurd enough (Nat.not_lt_zero _)
  | succ visits inductionHypothesis =>
      have openAtMost : openCount clauses node ≤ clauses.flatten.length := List.countP_le_length
      obtain ⟨propagated, kept⟩ := @run_propagateClient clauses pureLiterals _ node progress waiting
        (Nat.lt_succ_of_le openAtMost)
      rw [searchFrom_step, searchClient, Client.run_bind]
      generalize (propagateClient clauses pureLiterals (clauses.flatten.length + 1) progress).run
        Assignment.server node waiting = first at propagated kept
      obtain ⟨leaf, aside, after, result⟩ := first
      -- Propagation puts nothing aside, so the height is still the number of nodes that wait.
      obtain rfl : waiting = aside := kept.symm
      rw [Served.withPresent] at propagated
      simp only [visit, ← propagated]
      cases result with
      | error fault => rfl
      | ok outcome =>
          cases outcome with
          | conflict =>
              cases waiting with
              | nil =>
                  show _ = searchFrom clauses pureLiterals [] after.conflict
                  rw [searchFrom_step]
                  rfl
              | cons next others =>
                  have lighter := stackWeight_tail_lt clauses node (next :: others)
                  exact inductionHypothesis after.conflict (by omega)
          | satisfied => rfl
          | undecided l =>
              have answered : (propagate clauses pureLiterals node progress).result =
                  .ok (.undecided l, leaf) := by
                rw [← propagated]
                rfl
              simp only [Run.map, Except.map, Client.run_branch]
              cases assignedFalse : leaf.assignVar l.var false with
              | error fault => rfl
              | ok whenFalse =>
                  cases assignedTrue : leaf.assignVar l.var true with
                  | error fault => rfl
                  | ok whenTrue =>
                      have lighter := stackWeight_children_lt waiting
                        (openCount_child_lt answered assignedTrue)
                        (openCount_child_lt answered assignedFalse)
                      exact @inductionHypothesis whenTrue (whenFalse :: waiting)
                        (after.decision l.var waiting.length) (by omega)

/-- The search from an assignment that binds nothing.  The search tree has at most one level for
each occurrence of a literal. -/
def searchAllClient (progress : Progress) : Client (Run Bool) :=
  match simplifyWritten clauses with
  | .unsat => .done (.done progress false)
  | .sat => .done (.done progress true)
  | .remaining kept =>
      searchClient kept pureLiterals (fullTreeSize kept.flatten.length + 1) 0 progress

theorem run_searchAllClient (room : Nat) (progress : Progress) :
    ((searchAllClient clauses pureLiterals progress).run Assignment.server (.withRoom room)
      []).found = search clauses room pureLiterals progress := by
  rw [searchAllClient, search]
  cases simplifyWritten clauses with
  | unsat => rfl
  | sat => rfl
  | remaining kept =>
      have weight : stackWeight kept [.withRoom room] ≤ fullTreeSize kept.flatten.length :=
        fullTreeSize_mono List.countP_le_length
      exact @run_searchClient kept pureLiterals _ _ [] progress (Nat.lt_succ_of_le weight)

end Search

/-! ## Elimination -/

section Elimination

def Client.andThen (first next : Client (Except Fault Unit)) : Client (Except Fault Unit) :=
  first.bind fun
    | .error fault => .done (.error fault)
    | .ok () => next

def fillFalseClient (pivot : Var) : List Lit → Client (Except Fault Unit)
  | [] => .done (.ok ())
  | l :: rest => .ask fun answers =>
      if l.var != pivot && (answers.value l.var).isNone then
        .call (.assignVar l.var false) fun
          | some fault => .done (.error fault)
          | none => fillFalseClient pivot rest
      else
        fillFalseClient pivot rest

def tryValueClient (v : Var) (polarity : Bool) (clauses : List Clause)
    (otherwise : Client (Except Fault Unit)) : Client (Except Fault Unit) :=
  .call (.assignVar v polarity) fun
    | some fault => .done (.error fault)
    | none => .ask fun answers =>
        if clauses.all answers.satisfies then .done (.ok ()) else otherwise

def extendModelClient (level : EliminationLevel) : Client (Except Fault Unit) :=
  (fillFalseClient level.pivot (level.clauses.flatMap Clause.lits)).andThen <|
    tryValueClient level.pivot false level.clauses <|
      .call (.unassign level.pivot) fun _ =>
        tryValueClient level.pivot true level.clauses <|
          .done (.error (.unsatisfiedLevel level.pivot.number))

def extendThroughClient : List EliminationLevel → Client (Except Fault Unit)
  | [] => .done (.ok ())
  | level :: rest => (extendModelClient level).andThen (extendThroughClient rest)

def eliminateClient (clauses : List Clause) (progress : Progress) : Client (Run Bool) :=
  match eliminateFrom [] clauses progress with
  | ⟨after, .error fault⟩ => .done (.stopped after fault)
  | ⟨after, .ok none⟩ => .done (.done after false)
  | ⟨after, .ok (some levels)⟩ =>
      (extendThroughClient levels).bind fun result => .done ⟨after, result.map fun _ => true⟩

/-- A client makes of an assignment what a function gives back for it, whatever is put aside. -/
def Client.Makes (client : Client (Except Fault Unit)) (assignment : Assignment)
    (made : Except Fault Assignment) : Prop :=
  ∀ aside, (client.run Assignment.server assignment aside).changed = made

theorem makes_andThen {first next : Client (Except Fault Unit)} {assignment : Assignment}
    {made : Except Fault Assignment} {change : Assignment → Except Fault Assignment}
    (makesFirst : first.Makes assignment made)
    (makesNext : ∀ after, next.Makes after (change after)) :
    (first.andThen next).Makes assignment (made >>= change) := by
  intro aside
  rw [Client.andThen, Client.run_bind, ← makesFirst aside]
  generalize first.run Assignment.server assignment aside = served
  obtain ⟨present, left, result⟩ := served
  cases result with
  | error fault => rfl
  | ok _ => exact makesNext present left

theorem makes_fillFalseClient (pivot : Var) (lits : List Lit) (assignment : Assignment) :
    (fillFalseClient pivot lits).Makes assignment (fillFalse pivot assignment lits) := by
  intro aside
  induction lits generalizing assignment with
  | nil => rfl
  | cons l rest inductionHypothesis =>
      rw [fillFalseClient, Client.run_ask_assignment, fillFalse]
      show Served.changed (Client.run _ (if l.var != pivot && (assignment.value l.var).isNone
        then _ else _) _ _) = _
      split
      · rw [Client.run_assignVar]
        cases assignment.assignVar l.var false with
        | error fault => rfl
        | ok next => exact inductionHypothesis next
      · exact inductionHypothesis assignment

theorem makes_tryValueClient {v : Var} {polarity : Bool} {clauses : List Clause}
    {otherwise : Client (Except Fault Unit)} {change : Assignment → Except Fault Assignment}
    (makesOtherwise : ∀ after, otherwise.Makes after (change after)) (assignment : Assignment) :
    (tryValueClient v polarity clauses otherwise).Makes assignment (do
      let after ← assignment.assignVar v polarity
      if clauses.all after.satisfies then
        return after
      change after) := by
  intro aside
  rw [tryValueClient, Client.run_assignVar]
  cases assignment.assignVar v polarity with
  | error fault => rfl
  | ok after =>
      show Served.changed (Client.run _ (if clauses.all after.satisfies then _ else _) _ _) = _
      simp only [bind, Except.bind]
      split
      · rfl
      · exact makesOtherwise after aside

theorem makes_extendModelClient (level : EliminationLevel) (assignment : Assignment) :
    (extendModelClient level).Makes assignment (extendModel level assignment) := by
  refine makes_andThen (makes_fillFalseClient _ _ assignment) fun filled => ?_
  refine makes_tryValueClient (fun low aside => ?_) filled
  exact @makes_tryValueClient level.pivot true level.clauses _
    (fun _ => .error (.unsatisfiedLevel level.pivot.number)) (fun high aside => rfl)
    (low.unassign level.pivot) aside

theorem makes_extendThroughClient (levels : List EliminationLevel) (assignment : Assignment) :
    (extendThroughClient levels).Makes assignment (extendThrough assignment levels) := by
  induction levels generalizing assignment with
  | nil => exact fun aside => rfl
  | cons level rest inductionHypothesis =>
      have both := makes_andThen (makes_extendModelClient level assignment) inductionHypothesis
      rw [extendThroughClient, extendThrough]
      cases made : extendModel level assignment with
      | error fault => rwa [made] at both
      | ok next => rwa [made] at both

theorem run_eliminateClient (clauses : List Clause) (room : Nat) (progress : Progress) :
    ((eliminateClient clauses progress).run Assignment.server (.withRoom room) []).found =
      eliminate clauses room progress := by
  rw [eliminateClient, eliminate]
  cases eliminateFrom [] clauses progress with
  | mk after result =>
      cases result with
      | error fault => rfl
      | ok found =>
          cases found with
          | none => rfl
          | some levels =>
              have made := makes_extendThroughClient levels (.withRoom room) []
              simp only [Client.run_bind, ← made]
              generalize (extendThroughClient levels).run Assignment.server (.withRoom room) [] =
                served
              obtain ⟨present, aside, result⟩ := served
              cases result <;> rfl

end Elimination

/-! ## The procedures on slots -/

/-- Propagation on any slots, and the search and elimination on empty slots of any number, list
what the procedures give for the assignments that the slots list. -/
theorem clients_on_slots (progress : Progress) :
    (∀ clauses pureLiterals slots,
      ((propagateClient clauses pureLiterals (clauses.flatten.length + 1) progress).run
        Slots.server slots []).withPresent.map (Prod.map id Slots.toAssignment) =
          propagate clauses pureLiterals slots.toAssignment progress) ∧
    (∀ clauses pureLiterals count,
      ((searchAllClient clauses pureLiterals progress).run Slots.server (.ofCount count)
        []).found.map (Option.map Slots.toAssignment) =
          search clauses count pureLiterals progress) ∧
    ∀ clauses count,
      ((eliminateClient clauses progress).run Slots.server (.ofCount count) []).found.map
        (Option.map Slots.toAssignment) = eliminate clauses count progress := by
  refine ⟨fun clauses pureLiterals slots => ?_, fun clauses pureLiterals count => ?_,
    fun clauses count => ?_⟩
  · rw [← Served.withPresent_map, ← Client.run_toAssignment]
    exact (run_propagateClient progress [] (Nat.lt_succ_of_le List.countP_le_length)).1
  · rw [← Served.found_map, ← Client.run_toAssignment, Slots.toAssignment_ofCount]
    exact run_searchAllClient clauses pureLiterals count progress
  · rw [← Served.found_map, ← Client.run_toAssignment, Slots.toAssignment_ofCount]
    exact run_eliminateClient clauses count progress

end Clausal
