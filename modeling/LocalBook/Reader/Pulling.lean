import LocalBook.Reader.Retry

/-! A device pulls the operations of the others page by page while they go on pushing. The
cursor names a time and an id, and a page holds the rows beyond both. -/
namespace LocalBook.Reader

/-- The server and one device that pulls from it, with every row it was sent. -/
structure Puller where
  db : Db
  cursor : Option Text := none
  delivered : List OutboxRow := []

inductive Event where
  | push (device : Text) (operations : List Operation) (clock : Nat → Clock)
  | pull (limit : Nat)

/-- One round of the loop of `pullChanges`: the cursor moves when the page names a next one. -/
def receive (s : Puller) (page : Page) : Puller :=
  {s with cursor := page.nextCursor.or s.cursor,delivered := s.delivered ++ page.rows}

def step (me : Text) (s : Puller) : Event → Puller
  | .push device operations clock => {s with db := (pushSync device operations clock s.db).2}
  | .pull limit =>
    match pullSync me s.cursor limit s.db with
    | .ok page => receive s page
    | .error _ => s

def run (me : Text) (events : List Event) (s : Puller) : Puller := events.foldl (step me) s

/-- The operations the server accepted from the other devices, in the order of their ids. -/
def others (me : Text) (db : Db) : List OutboxRow := db.outbox.filter fun row => row.deviceId ≠ me

structure Ordered (db : Db) : Prop where
  ids : db.outbox.Pairwise fun a b => a.id < b.id
  given : ∀ row ∈ db.outbox, 0 < row.id ∧ row.id ≤ db.sequence

/-- The times of these rows never fall, and none is before the epoch. -/
structure Rising (rows : List OutboxRow) : Prop where
  epoch : ∀ row ∈ rows, 0 ≤ row.createdAt
  times : rows.Pairwise fun a b => a.createdAt ≤ b.createdAt

section Cursor

@[simp] theorem parse_render_cursor (cursor : Cursor) :
    Cursor.parse cursor.render = some cursor := by
  have free : ∀ n : Int, ':' ∉ Decimal.render n := fun n =>
    Decimal.not_mem_render (by decide) (by decide)
  rw [Cursor.parse,Cursor.render,Text.split,List.splitOn_append_cons_self,
    List.splitOn_eq_singleton (free _),List.splitOn_eq_singleton (free _)]
  simp

theorem parseCursor_render (cursor : Cursor) :
    parseCursor (some cursor.render) = .ok cursor := by
  have shown : cursor.render ≠ [] := by simp [Cursor.render]
  unfold parseCursor
  split
  · rename_i same
    cases same
  · rename_i same
    exact absurd (Option.some.inj same) shown
  · rename_i same
    obtain rfl := Option.some.inj same
    simp

/-- Where the cursor stands after these rows. -/
def reached (rows : List OutboxRow) : Cursor := (rows.getLast?.map OutboxRow.cursor).getD .start

@[simp] theorem reached_nil : reached [] = .start := rfl

@[simp] theorem reached_append_singleton (rows : List OutboxRow) (row : OutboxRow) :
    reached (rows ++ [row]) = row.cursor := by simp [reached]

theorem Rising.append_iff {rows later : List OutboxRow} :
    Rising (rows ++ later) ↔ Rising rows ∧ Rising later ∧
      ∀ a ∈ rows, ∀ b ∈ later, a.createdAt ≤ b.createdAt := by
  constructor
  · rintro ⟨epoch,times⟩
    obtain ⟨first,second,across⟩ := List.pairwise_append.mp times
    exact ⟨⟨fun row found => epoch row (List.mem_append_left _ found),first⟩,
      ⟨fun row found => epoch row (List.mem_append_right _ found),second⟩,across⟩
  · rintro ⟨first,second,across⟩
    exact ⟨fun row found => (List.mem_append.mp found).elim (first.epoch row) (second.epoch row),
      List.pairwise_append.mpr ⟨first.times,second.times,across⟩⟩

theorem Rising.of_prefix {rows longer : List OutboxRow} (rising : Rising longer)
    (initial : rows <+: longer) : Rising rows := by
  obtain ⟨later,rfl⟩ := initial
  exact (append_iff.mp rising).1

/-- The cursor is at least as late as every row before it. -/
theorem Rising.le_reached {rows : List OutboxRow} (rising : Rising rows) {row : OutboxRow}
    (found : row ∈ rows) : row.createdAt ≤ (reached rows).timestamp := by
  rcases List.eq_nil_or_concat rows with rfl | ⟨initial,last,rfl⟩
  · simp at found
  · rw [List.concat_eq_append] at found rising ⊢
    rw [reached_append_singleton]
    rcases List.mem_append.mp found with before | same
    · exact (append_iff.mp rising).2.2 row before last (by simp)
    · rw [List.mem_singleton.mp same]
      exact le_rfl

end Cursor

section Steps

variable {me device : Text} {s : Puller} {db : Db} {limit : Nat} {page : Page}

theorem pushSync_appended (device : Text) (operations : List Operation) (clock : Nat → Clock)
    (db : Db) : ∃ rows, Appended device db (pushSync device operations clock db).2 rows := by
  unfold pushSync
  cases ran : pushVerdicts device operations clock db with
  | error fault => exact ⟨[],by simp,by simp,by simp,by simp,rfl⟩
  | ok result =>
    obtain ⟨rows,appended,-⟩ := applyOperations_appended (pushVerdicts_eq_ok.mp ran).2
    exact ⟨rows,appended⟩

theorem Appended.ordered {db db' : Db} {rows : List OutboxRow}
    (appended : Appended device db db' rows) (ordered : Ordered db) : Ordered db' := by
  have fresh : ∀ row ∈ rows, db.sequence + 1 ≤ row.id ∧ row.id ≤ db.sequence + rows.length := by
    intro row found
    have listed : row.id ∈ rows.map OutboxRow.id := List.mem_map_of_mem found
    rw [appended.ids,List.mem_range'_1] at listed
    omega
  have rising : rows.Pairwise fun a b => a.id < b.id := by
    have listed := List.pairwise_lt_range' (s := db.sequence + 1) (n := rows.length)
    rwa [← appended.ids,List.pairwise_map] at listed
  constructor
  · rw [appended.outbox]
    refine List.pairwise_append.mpr ⟨ordered.ids,rising,fun a old b new => ?_⟩
    have below := (ordered.given a old).2
    have above := (fresh b new).1
    omega
  · intro row found
    rw [appended.sequence]
    rcases List.mem_append.mp (appended.outbox ▸ found) with old | new
    · have bounds := ordered.given row old
      omega
    · have bounds := fresh row new
      omega

theorem others_appended {db db' : Db} {rows : List OutboxRow}
    (appended : Appended device db db' rows) : others me db <+: others me db' := by
  rw [others,others,appended.outbox,List.filter_append]
  exact List.prefix_append _ _

/-- The server answers this device. -/
def Known (me : Text) (db : Db) : Prop := me ≠ placeholderDevice ∧ me ∈ db.devices

theorem pullSync_eq (known : Known me s.db) {cursor : Cursor}
    (parsed : parseCursor s.cursor = .ok cursor) :
    pullSync me s.cursor limit s.db = .ok
      {rows := (changesAfter me cursor s.db).take limit,
       nextCursor := ((changesAfter me cursor s.db).take limit).getLast?.map
         fun row => row.cursor.render,
       hasMore := decide (limit < (changesAfter me cursor s.db).length)} := by
  have passes : getDevice me s.db = .ok () := by
    simp [getDevice,refuse,known.1,known.2]
  simp only [pullSync,passes,pullSyncChanges,parsed,bind,Except.bind,pure,Except.pure,
    List.take_take,List.length_take,Nat.min_eq_left (Nat.le_succ limit)]
  congr 2
  simp only [decide_eq_decide]
  omega

theorem step_pull (known : Known me s.db) {cursor : Cursor}
    (parsed : parseCursor s.cursor = .ok cursor) :
    step me s (.pull limit) = receive s
      {rows := (changesAfter me cursor s.db).take limit,
       nextCursor := ((changesAfter me cursor s.db).take limit).getLast?.map
         fun row => row.cursor.render,
       hasMore := decide (limit < (changesAfter me cursor s.db).length)} := by
  simp only [step,pullSync_eq known parsed]

theorem mem_changesAfter {cursor : Cursor} {row : OutboxRow}
    (found : row ∈ changesAfter me cursor db) : cursor.timestamp ≤ row.createdAt := by
  rw [changesAfter,List.mem_insertionSort,List.mem_filter] at found
  simp only [OutboxRow.after,Bool.and_eq_true,decide_eq_true_eq] at found
  exact found.2.1.2

/-- The device's cursor stands behind the last row it was sent, and the times of those rows
never fall. -/
structure Following (s : Puller) : Prop where
  cursor : parseCursor s.cursor = .ok (reached s.delivered)
  rising : Rising s.delivered

theorem times_changesAfter (me : Text) (cursor : Cursor) (db : Db) :
    (changesAfter me cursor db).Pairwise fun a b => a.createdAt ≤ b.createdAt := by
  have total : Std.Total OutboxRow.precedes := ⟨fun a b => by
    unfold OutboxRow.precedes
    omega⟩
  have trans : IsTrans OutboxRow OutboxRow.precedes := ⟨fun a b c => by
    unfold OutboxRow.precedes
    omega⟩
  refine (List.pairwise_insertionSort OutboxRow.precedes _).imp fun {a b} before => ?_
  unfold OutboxRow.precedes at before
  omega

theorem receive_cursor (follows : Following s) (rows : List OutboxRow) :
    parseCursor ((rows.getLast?.map fun row => row.cursor.render).or s.cursor) =
      .ok (reached (s.delivered ++ rows)) := by
  rcases List.eq_nil_or_concat rows with rfl | ⟨initial,last,rfl⟩
  · simpa using follows.cursor
  · rw [List.concat_eq_append,← List.append_assoc,reached_append_singleton]
    simpa using parseCursor_render last.cursor

theorem following_step (known : Known me s.db) (follows : Following s) (event : Event) :
    Following (step me s event) := by
  cases event with
  | push device operations clock => exact ⟨follows.cursor,follows.rising⟩
  | pull limit =>
    rw [step_pull known follows.cursor]
    refine ⟨receive_cursor follows _,Rising.append_iff.mpr ⟨follows.rising,⟨?_,?_⟩,?_⟩⟩
    · intro row found
      have late := mem_changesAfter (List.mem_of_mem_take found)
      rcases List.eq_nil_or_concat s.delivered with none_ | ⟨initial,last,shape⟩
      · rw [none_] at late
        exact late
      · have epoch := follows.rising.epoch last (by simp [shape])
        have before := @Rising.le_reached _ follows.rising last (by simp [shape])
        omega
    · exact (times_changesAfter me _ s.db).sublist (List.take_sublist _ _)
    · intro a old b new
      have late := mem_changesAfter (List.mem_of_mem_take new)
      have before := follows.rising.le_reached old
      omega

/-- What no step changes: the device stays known and the outbox ordered. -/
structure Served (me : Text) (s : Puller) : Prop where
  known : Known me s.db
  ordered : Ordered s.db
  follows : Following s

theorem step_pull_db (me : Text) (s : Puller) (limit : Nat) :
    (step me s (.pull limit)).db = s.db := by
  simp only [step]
  split <;> rfl

theorem served_step (served : Served me s) (event : Event) : Served me (step me s event) := by
  refine ⟨?_,?_,following_step served.known served.follows event⟩
  · cases event with
    | push device operations clock =>
      obtain ⟨rows,appended⟩ := pushSync_appended device operations clock s.db
      exact ⟨served.known.1,by simpa [step,appended.devices] using served.known.2⟩
    | pull limit =>
      rw [step_pull_db]
      exact served.known
  · cases event with
    | push device operations clock =>
      obtain ⟨rows,appended⟩ := pushSync_appended device operations clock s.db
      exact appended.ordered served.ordered
    | pull limit =>
      rw [step_pull_db]
      exact served.ordered

theorem served_run (served : Served me s) (events : List Event) : Served me (run me events s) := by
  induction events generalizing s with
  | nil => exact served
  | cons event rest ih => exact ih (served_step served event)

/-- The history of the others only grows. -/
theorem others_step (me : Text) (s : Puller) (event : Event) :
    others me s.db <+: others me (step me s event).db := by
  cases event with
  | push device operations clock =>
    obtain ⟨rows,appended⟩ := pushSync_appended device operations clock s.db
    exact others_appended appended
  | pull limit =>
    exact (step_pull_db me s limit).symm ▸ List.prefix_refl _

theorem others_run (me : Text) (s : Puller) (events : List Event) :
    others me s.db <+: others me (run me events s).db := by
  induction events generalizing s with
  | nil => exact List.prefix_rfl
  | cons event rest ih => exact (others_step me s event).trans (ih (step me s event))

/-- As long as the clock never falls, a pull brings the next rows in the order of the ids. -/
theorem changesAfter_of_rising (served : Served me s) (rising : Rising (others me s.db))
    {rest : List OutboxRow} (split : others me s.db = s.delivered ++ rest) :
    changesAfter me (reached s.delivered) s.db = rest := by
  have ids : (s.delivered ++ rest).Pairwise fun a b => a.id < b.id :=
    split ▸ served.ordered.ids.sublist List.filter_sublist
  rw [split] at rising
  obtain ⟨first,second,across⟩ := Rising.append_iff.mp rising
  obtain ⟨-,restIds,idsAcross⟩ := List.pairwise_append.mp ids
  have positive : ∀ row ∈ rest, 0 < row.id := by
    intro row found
    have member : row ∈ others me s.db := split ▸ List.mem_append_right _ found
    exact (served.ordered.given row (List.mem_filter.mp member).1).1
  have old : ∀ row ∈ s.delivered, ¬ (reached s.delivered).offset < row.id := by
    intro row found
    rcases List.eq_nil_or_concat s.delivered with none_ | ⟨initial,last,shape⟩
    · simp [none_] at found
    · rw [List.concat_eq_append] at shape
      rw [shape,reached_append_singleton]
      rw [shape,List.append_assoc] at ids
      rcases List.mem_append.mp (shape ▸ found) with before | same
      · have less := (List.pairwise_append.mp ids).2.2 row before last (by simp)
        simp only [OutboxRow.cursor]
        omega
      · rw [List.mem_singleton.mp same]
        simp [OutboxRow.cursor]
  have new : ∀ row ∈ rest, (reached s.delivered).timestamp ≤ row.createdAt ∧
      (reached s.delivered).offset < row.id := by
    intro row found
    rcases List.eq_nil_or_concat s.delivered with none_ | ⟨initial,last,shape⟩
    · have id := positive row found
      have epoch := second.epoch row found
      rw [none_]
      exact ⟨epoch,by simpa [Cursor.start] using id⟩
    · rw [List.concat_eq_append] at shape
      have less := idsAcross last (by simp [shape]) row found
      have late := across last (by simp [shape]) row found
      rw [shape,reached_append_singleton]
      exact ⟨late,by simpa [OutboxRow.cursor] using less⟩
  have eligible : s.db.outbox.filter (OutboxRow.after me (reached s.delivered)) = rest := by
    have twice : s.db.outbox.filter (OutboxRow.after me (reached s.delivered)) =
        (others me s.db).filter fun row => decide
          ((reached s.delivered).timestamp ≤ row.createdAt ∧
            (reached s.delivered).offset < row.id) := by
      rw [others,List.filter_filter]
      refine List.filter_congr fun row _ => ?_
      simp only [OutboxRow.after,Bool.decide_and]
      ac_rfl
    rw [twice,split,List.filter_append,List.filter_eq_nil_iff.mpr,List.nil_append]
    · exact List.filter_eq_self.mpr fun row found => decide_eq_true (new row found)
    · intro row found
      have stale := old row found
      simp [stale]
  rw [changesAfter,eligible]
  refine List.Pairwise.insertionSort_eq ?_
  refine (second.times.and restIds).imp fun {a b} both => ?_
  unfold OutboxRow.precedes
  omega

def InOrder (me : Text) (s : Puller) : Prop := s.delivered <+: others me s.db

theorem inOrder_step (served : Served me s) (event : Event) (inOrder : InOrder me s)
    (rising : Rising (others me s.db)) : InOrder me (step me s event) := by
  cases event with
  | push device operations clock => exact inOrder.trans (others_step me s (.push device operations clock))
  | pull limit =>
    obtain ⟨rest,split⟩ := inOrder
    have page := changesAfter_of_rising served rising split.symm
    rw [InOrder,step_pull_db,step_pull served.known served.follows.cursor,page,← split]
    exact List.prefix_append_right_inj _ |>.mpr (List.take_prefix _ _)

theorem inOrder_run (served : Served me s) (inOrder : InOrder me s) (events : List Event)
    (rising : Rising (others me (run me events s).db)) : InOrder me (run me events s) := by
  induction events generalizing s with
  | nil => exact inOrder
  | cons event rest ih =>
    have now : Rising (others me s.db) := rising.of_prefix (others_run me s (event :: rest))
    exact ih (served_step served event) (inOrder_step served event inOrder now) rising

/-- A device that goes on pulling is sent what is left. -/
theorem run_pulls (served : Served me s) (rising : Rising (others me s.db))
    {rest : List OutboxRow} (split : others me s.db = s.delivered ++ rest) (some_ : 0 < limit)
    {n : Nat} (enough : rest.length ≤ n) :
    (run me (List.replicate n (.pull limit)) s).delivered = others me s.db := by
  induction n generalizing s rest with
  | zero =>
    obtain rfl : rest = [] := List.length_eq_zero_iff.mp (by omega)
    simpa [run] using split.symm
  | succ n ih =>
    have page := changesAfter_of_rising served rising split
    have sent : (step me s (.pull limit)).delivered = s.delivered ++ rest.take limit := by
      rw [step_pull served.known served.follows.cursor,page]
      rfl
    have same := step_pull_db me s limit
    have left : others me (step me s (.pull limit)).db =
        (step me s (.pull limit)).delivered ++ rest.drop limit := by
      rw [same,sent,split,List.append_assoc,List.take_append_drop]
    have later := ih (served_step served (.pull limit)) (same ▸ rising) left
      (by rw [List.length_drop]; omega)
    rw [same] at later
    exact later

end Steps

/-- Every operation the server accepts from another device is sent once and in the order of
the ids: at every stage of the run what was sent are the first of them, and when the device
goes on pulling after the run it is sent them all. -/
def ExactlyOnce (me : Text) (events : List Event) (start : Puller) : Prop :=
  (∀ earlier, earlier <+: events → InOrder me (run me earlier start)) ∧
  ∀ limit n, 0 < limit → (others me (run me events start).db).length ≤ n →
    (run me (events ++ List.replicate n (.pull limit)) start).delivered =
      others me (run me events start).db

/-- Whatever is pushed and pulled, in whatever order: every operation of the others is sent
exactly once and in order if and only if the times of their rows never fall. -/
theorem exactlyOnce_iff {me : Text} {db : Db} (known : Known me db) (ordered : Ordered db)
    (events : List Event) :
    ExactlyOnce me events {db} ↔ Rising (others me (run me events {db}).db) := by
  have served : Served me {db} := ⟨known,ordered,rfl,⟨by simp,List.Pairwise.nil⟩⟩
  constructor
  · rintro ⟨-,complete⟩
    have all := complete 100 _ (by omega) le_rfl
    rw [← all]
    exact (served_run served _).follows.rising
  · intro rising
    have first : InOrder me {db} := List.nil_prefix
    refine ⟨fun earlier initial => ?_,fun limit n some_ enough => ?_⟩
    · obtain ⟨later,rfl⟩ := initial
      refine inOrder_run served first earlier (rising.of_prefix ?_)
      rw [run,run,List.foldl_append]
      exact others_run me _ later
    · obtain ⟨rest,split⟩ := inOrder_run served first events rising
      have short : rest.length ≤ n := by
        have total := congrArg List.length split
        rw [List.length_append] at total
        omega
      rw [run,List.foldl_append]
      exact run_pulls (served_run served events) rising split.symm some_ short

def twoDevices : Db := {devices := ["macbook".toList,"iphone".toList]}

def removal (id : String) : Operation where
  operation := .delete
  entityType := .note
  entityId := id.toList

/-- The telephone pushes two operations at these times. -/
def twoRemovals (first second : Int) : List Event :=
  [.push "iphone".toList [removal "a"] fun _ _ => first,
   .push "iphone".toList [removal "b"] fun _ _ => second]

theorem twoRemovals_exactlyOnce :
    ExactlyOnce "macbook".toList (twoRemovals 5 10) {db := twoDevices} :=
  (exactlyOnce_iff (by decide : _ ∧ _) ⟨List.Pairwise.nil,by simp [twoDevices]⟩ _).mpr
    ⟨by decide +kernel,by decide +kernel⟩

/-- The clock of the server is set back between two pushes: the page brings the second
operation first, and the cursor behind it passes the first one over for good. -/
theorem clockSetBack_not_exactlyOnce :
    ¬ ExactlyOnce "macbook".toList (twoRemovals 10 5) {db := twoDevices} := by
  rintro ⟨-,complete⟩
  have all := congrArg List.length (complete 1 2 (by decide) (by decide +kernel))
  exact absurd all (by decide +kernel)

end LocalBook.Reader
