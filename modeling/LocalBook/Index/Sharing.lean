import Mathlib

/-! The one connection to the derived database, which several threads share under a re-entrant
lock. Outside a transaction a statement takes effect at once. -/
namespace LocalBook.Index.Sharing

variable {Db Thread : Type}

/-- What SQLite makes of a command: it is done; it fails and an open transaction stays open; or
it fails and SQLite rolls the transaction back itself. -/
inductive Outcome where
  | done
  | failed
  | aborted
deriving DecidableEq

inductive Command (Db : Type) where
  | begin
  | statement (change : Db → Db)
  | commit
  | rollback

/-- A connection in autocommit mode: what is committed, and the content that an open transaction
sees. -/
structure Connection (Db : Type) where
  committed : Db
  working : Option Db := none

namespace Connection

def view (c : Connection Db) : Db := c.working.getD c.committed

/-- `conn.execute`, with whether it returns. A transaction cannot be begun within another, and
none is committed or rolled back where none is open. -/
def execute (c : Connection Db) : Command Db → Outcome → Connection Db × Bool
  | .begin,outcome =>
    match c.working,outcome with
    | none,.done => ({c with working := some c.committed},true)
    | _,_ => (c,false)
  | .statement change,.done =>
    match c.working with
    | some content => ({c with working := some (change content)},true)
    | none => ({c with committed := change c.committed},true)
  | .commit,.done =>
    match c.working with
    | some content => ({committed := content},true)
    | none => (c,false)
  | .rollback,.done => ({c with working := none},c.working.isSome)
  | _,.failed => (c,false)
  | _,.aborted => ({c with working := none},false)

end Connection

/-- The connection, the thread that holds the lock and its open transaction blocks, the innermost
first. A block is noted with what was committed when it began, and the open transaction with
the thread that began it. -/
structure IndexDatabase (Db Thread : Type) where
  connection : Connection Db
  lock : Option Thread := none
  blocks : List Db := []
  begunBy : Option Thread := none

/-- What a thread does: `execute` or a fetch, or a statement of its innermost block; the begin
of a `transaction`; the end of its innermost block, which raises or not. -/
inductive Op (Db : Type) where
  | execute (change : Db → Db) (outcome : Outcome)
  | enter (outcome : Outcome)
  | leave (raises : Bool) (outcome : Outcome)

namespace IndexDatabase

variable [DecidableEq Thread] (s : IndexDatabase Db Thread) (thread : Thread)

def admits : Bool := s.lock = none || s.lock = some thread

/-- `COMMIT`, or `ROLLBACK` if the block raises. -/
def ending (raises : Bool) : Command Db := if raises then .rollback else .commit

/-- One step of a thread; a thread that has to wait for the lock does nothing. -/
def step : Op Db → IndexDatabase Db Thread
  | .execute change outcome =>
    if s.admits thread then
      {s with connection := (s.connection.execute (.statement change) outcome).1}
    else s
  | .enter outcome =>
    if s.admits thread then
      match s.connection.execute .begin outcome with
      | (connection,true) =>
        {s with
          connection := connection
          lock := some thread
          blocks := s.connection.committed :: s.blocks
          begunBy := some thread}
      | (connection,false) => {s with connection := connection}
    else s
  | .leave raises outcome =>
    if s.admits thread then
      match s.blocks with
      | [] => s
      | _ :: blocks =>
        {s with
          connection := (s.connection.execute (ending raises) outcome).1
          lock := if blocks.isEmpty then none else some thread
          blocks := blocks}
    else s

end IndexDatabase

/-- The database after the steps of several threads in some order. -/
def shared [DecidableEq Thread] (s : IndexDatabase Db Thread) (steps : List (Thread × Op Db)) :
    IndexDatabase Db Thread :=
  steps.foldl (fun s step => s.step step.1 step.2) s

structure Atomic [DecidableEq Thread] (s : IndexDatabase Db Thread) (thread : Thread)
    (op : Op Db) : Prop where
  /-- A statement never runs inside the transaction of another thread. -/
  own : ∀ change outcome, op = .execute change outcome → s.admits thread →
    s.connection.working.isSome → s.begunBy = some thread
  /-- A block that raises, or whose `COMMIT` fails, leaves no change. -/
  unchanged : ∀ raises outcome begun outer, op = .leave raises outcome → s.admits thread →
    s.blocks = begun :: outer →
    raises = true ∨ (s.connection.execute .commit outcome).2 = false →
    (s.step thread op).connection.view = begun
  /-- Behind the last block the connection is outside a transaction. -/
  outside : (s.step thread op).blocks = [] → (s.step thread op).connection.working = none
  /-- A first block is not refused unless its own `BEGIN` fails. -/
  accepted : op = .enter .done → s.admits thread → s.blocks = [] →
    (s.step thread op).blocks = [s.connection.committed]

/-- SQLite ends the transaction when `COMMIT` or `ROLLBACK` fails, and a block whose transaction
SQLite has rolled back changes nothing more. -/
def Ends [DecidableEq Thread] (s : IndexDatabase Db Thread) (thread : Thread) (op : Op Db) : Prop :=
  s.admits thread → s.blocks ≠ [] →
    match op with
    | .execute _ _ => s.connection.working = none →
        (s.step thread op).connection.committed = s.connection.committed
    | .enter outcome => s.connection.working = none → outcome ≠ .done
    | .leave _ outcome => s.connection.working.isSome → outcome ≠ .failed

def AllEnd [DecidableEq Thread] (s : IndexDatabase Db Thread) : List (Thread × Op Db) → Prop
  | [] => True
  | step :: steps => Ends s step.1 step.2 ∧ AllEnd (s.step step.1 step.2) steps

/-- No block is open, or the one block of the thread that has the lock and began the
transaction. -/
inductive Kept : IndexDatabase Db Thread → Prop where
  | idle {committed : Db} {begunBy : Option Thread} : Kept ⟨⟨committed,none⟩,none,[],begunBy⟩
  | inside {committed : Db} {working : Option Db} {thread : Thread} :
    Kept ⟨⟨committed,working⟩,some thread,[committed],some thread⟩

section steps

variable [DecidableEq Thread] {s : IndexDatabase Db Thread} {thread : Thread} {op : Op Db}

theorem step_waiting (waits : ¬ s.admits thread) : s.step thread op = s := by
  cases op <;> simp only [IndexDatabase.step,if_neg waits]

theorem kept_execute {change : Db → Db} {outcome : Outcome} (kept : Kept s)
    (ends : Ends s thread (.execute change outcome)) :
    Kept (s.step thread (.execute change outcome)) := by
  by_cases admitted : s.admits thread
  · cases kept with
    | idle => cases outcome <;> exact .idle
    | @inside committed working holder =>
      cases outcome with
      | failed =>
        simp only [IndexDatabase.step,admitted,if_true]
        exact .inside
      | aborted =>
        simp only [IndexDatabase.step,admitted,if_true]
        exact .inside
      | done =>
        cases working with
        | some content =>
          simp only [IndexDatabase.step,admitted,if_true]
          exact .inside
        | none =>
          have same := ends admitted (List.cons_ne_nil _ _) rfl
          simp only [IndexDatabase.step,admitted,if_true,Connection.execute] at same ⊢
          rw [same]
          exact .inside
  · rwa [step_waiting admitted]

theorem kept_enter {outcome : Outcome} (kept : Kept s) (ends : Ends s thread (.enter outcome)) :
    Kept (s.step thread (.enter outcome)) := by
  by_cases admitted : s.admits thread
  · cases kept with
    | idle => cases outcome <;> first | exact .idle | exact .inside
    | @inside committed working holder =>
      simp only [IndexDatabase.step,admitted,if_true]
      cases working with
      | some content => exact .inside
      | none =>
        have refused := ends admitted (List.cons_ne_nil _ _) rfl
        cases outcome with
        | done => exact absurd rfl refused
        | failed => exact .inside
        | aborted => exact .inside
  · rwa [step_waiting admitted]

/-- However a block ends, its transaction is over. -/
theorem working_ending {c : Connection Db} (raises : Bool) {outcome : Outcome}
    (ends : c.working.isSome → outcome ≠ .failed) :
    (c.execute (IndexDatabase.ending raises) outcome).1.working = none := by
  obtain ⟨committed,working⟩ := c
  cases working with
  | none => cases raises <;> cases outcome <;> rfl
  | some content =>
    have ended := ends rfl
    cases outcome with
    | failed => exact absurd rfl ended
    | done => cases raises <;> rfl
    | aborted => cases raises <;> rfl

theorem kept_leave {raises : Bool} {outcome : Outcome} (kept : Kept s)
    (ends : Ends s thread (.leave raises outcome)) :
    Kept (s.step thread (.leave raises outcome)) := by
  by_cases admitted : s.admits thread
  · cases kept with
    | idle =>
      simp only [IndexDatabase.step,admitted,if_true]
      exact .idle
    | inside =>
      have ended := working_ending raises (ends admitted (List.cons_ne_nil _ _))
      simp only [IndexDatabase.step,admitted,if_true,List.isEmpty_nil]
      generalize (Connection.execute _ _ outcome).1 = c at ended ⊢
      obtain ⟨committed,working⟩ := c
      cases ended
      exact .idle
  · rwa [step_waiting admitted]

theorem kept_step (kept : Kept s) (ends : Ends s thread op) : Kept (s.step thread op) := by
  cases op with
  | execute change outcome => exact kept_execute kept ends
  | enter outcome => exact kept_enter kept ends
  | leave raises outcome => exact kept_leave kept ends

theorem Kept.own (kept : Kept s) (admitted : s.admits thread)
    (opened : s.connection.working.isSome) : s.begunBy = some thread := by
  cases kept with
  | idle => cases opened
  | inside => simpa [IndexDatabase.admits] using admitted

omit [DecidableEq Thread] in
theorem Kept.outside (kept : Kept s) (none : s.blocks = []) : s.connection.working = .none := by
  cases kept with
  | idle => rfl
  | inside => cases none

/-- A transaction that is not committed leaves what was committed when it began. -/
theorem Kept.unchanged {raises : Bool} {outcome : Outcome} {begun : Db} {outer : List Db}
    (kept : Kept s) (ends : Ends s thread (.leave raises outcome)) (admitted : s.admits thread)
    (here : s.blocks = begun :: outer)
    (undone : raises = true ∨ (s.connection.execute .commit outcome).2 = false) :
    (s.step thread (.leave raises outcome)).connection.view = begun := by
  cases kept with
  | idle => cases here
  | @inside committed working holder =>
    obtain ⟨rfl,rfl⟩ := List.cons.inj here
    have ended := working_ending raises (ends admitted (List.cons_ne_nil _ _))
    simp only [IndexDatabase.step,admitted,if_true]
    rw [Connection.view,ended,Option.getD_none]
    cases raises with
    | true => cases outcome <;> rfl
    | false =>
      have failed := undone.resolve_left Bool.false_ne_true
      cases outcome with
      | failed => rfl
      | aborted => rfl
      | done =>
        cases working with
        | none => rfl
        | some content => cases failed

theorem Kept.accepted (kept : Kept s) (admitted : s.admits thread) (none : s.blocks = []) :
    (s.step thread (.enter .done)).blocks = [s.connection.committed] := by
  cases kept with
  | idle => simp only [IndexDatabase.step,admitted,if_true,Connection.execute]
  | inside => cases none

theorem Kept.atomic (kept : Kept s) (ends : Ends s thread op) : Atomic s thread op where
  own _ _ _ admitted opened := kept.own admitted opened
  unchanged _ _ _ _ leaves admitted here undone := by
    subst leaves
    exact kept.unchanged ends admitted here undone
  outside := (kept_step kept ends).outside
  accepted enters admitted none := by
    subst enters
    exact kept.accepted admitted none

theorem kept_shared {steps : List (Thread × Op Db)} (kept : Kept s) (ends : AllEnd s steps) :
    Kept (shared s steps) := by
  induction steps generalizing s with
  | nil => exact kept
  | cons step steps ih => exact ih (kept_step kept ends.1) ends.2

theorem allEnd_append {before later : List (Thread × Op Db)} :
    AllEnd s (before ++ later) ↔ AllEnd s before ∧ AllEnd (shared s before) later := by
  induction before generalizing s with
  | nil => exact ⟨fun ends => ⟨trivial,ends⟩,And.right⟩
  | cons step before ih =>
    simp only [List.cons_append,AllEnd,ih,and_assoc]
    rfl

end steps

/-- In a run of any threads in which SQLite ends a transaction whenever `COMMIT` or `ROLLBACK`
fails, every step is atomic. -/
theorem atomic_of_ends [DecidableEq Thread] (committed : Db) {steps : List (Thread × Op Db)}
    (ends : AllEnd ⟨⟨committed,none⟩,none,[],none⟩ steps) :
    ∀ before thread op later, steps = before ++ (thread,op) :: later →
      Atomic (shared ⟨⟨committed,none⟩,none,[],none⟩ before) thread op := by
  rintro before thread op later rfl
  obtain ⟨earlier,here,-⟩ := allEnd_append.mp ends
  exact (kept_shared .idle earlier).atomic here

/-- A derived database in which a number stands for what is committed. -/
def quietDatabase : IndexDatabase Nat Bool := ⟨⟨0,none⟩,none,[],none⟩

/-- A block of one thread, another thread that comes in between and then fails in its own. -/
def twoThreads : List (Bool × Op Nat) :=
  [(true,.enter .done),(true,.execute (· + 1) .done),(false,.execute (· + 7) .done),
    (true,.leave false .done),(false,.enter .done),(false,.execute (· + 5) .failed)]

theorem twoThreads_atomic :
    Atomic (shared quietDatabase twoThreads) false (.leave true .done) := by
  have ends : AllEnd quietDatabase (twoThreads ++ [(false,.leave true .done)]) := by
    simp [AllEnd,Ends,twoThreads,quietDatabase,IndexDatabase.step,IndexDatabase.admits,
      Connection.execute]
  exact atomic_of_ends 0 ends twoThreads false (.leave true .done) [] rfl

/-- `COMMIT` fails and the transaction stays open behind its block. -/
theorem commit_leaks :
    ¬ Atomic (shared quietDatabase [(true,.enter .done),(true,.execute (· + 1) .done)]) true
      (.leave false .failed) := by
  intro atomic
  have opened := atomic.outside rfl
  cases opened

end LocalBook.Index.Sharing
