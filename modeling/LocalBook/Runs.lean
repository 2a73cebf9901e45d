import Mathlib

/-! Lists that are cut into runs. An element joins the run before it, or it starts the next one:
`joins` decides this on what was made of the run so far. -/
namespace LocalBook

structure Run (α : Type) where
  first : α
  rest : List α

namespace Run

variable {α β : Type}

def members (r : Run α) : List α := r.first :: r.rest

def push (r : Run α) (x : α) : Run α := ⟨r.first,r.rest ++ [x]⟩

@[simp] theorem members_push (r : Run α) (x : α) : (r.push x).members = r.members ++ [x] := rfl

variable (start : α → β) (extend : β → α → β)

/-- What is made of a run: the first element starts it and the others extend it. -/
def made (r : Run α) : β := r.rest.foldl extend (start r.first)

@[simp] theorem made_push (r : Run α) (x : α) :
    (r.push x).made start extend = extend (r.made start extend) x := by
  simp [made,push]

end Run

section Runs

variable {α β : Type} (start : α → β) (joins : β → α → Bool) (extend : β → α → β)

def runsFrom (current : β) : List α → List β
  | [] => [current]
  | x :: rest =>
    if joins current x then runsFrom (extend current x) rest
    else current :: runsFrom (start x) rest

def runs : List α → List β
  | [] => []
  | x :: rest => runsFrom start joins extend (start x) rest

def cutFrom (r : Run α) : List α → List (Run α)
  | [] => [r]
  | x :: rest =>
    if joins (r.made start extend) x then cutFrom (r.push x) rest
    else r :: cutFrom ⟨x,[]⟩ rest

def cut : List α → List (Run α)
  | [] => []
  | x :: rest => cutFrom start joins extend ⟨x,[]⟩ rest

theorem runsFrom_eq (r : Run α) (xs : List α) :
    runsFrom start joins extend (r.made start extend) xs =
      (cutFrom start joins extend r xs).map (Run.made start extend) := by
  induction xs generalizing r with
  | nil => rfl
  | cons x rest ih =>
    by_cases joined : joins (r.made start extend) x
    · simpa [runsFrom,cutFrom,joined] using ih (r.push x)
    · have started : start x = Run.made start extend ⟨x,[]⟩ := rfl
      simp only [runsFrom,cutFrom,joined,Bool.false_eq_true,if_false,started,ih,List.map_cons]

theorem runs_eq (xs : List α) : runs start joins extend xs =
    (cut start joins extend xs).map (Run.made start extend) := by
  cases xs with
  | nil => rfl
  | cons x rest => exact runsFrom_eq start joins extend ⟨x,[]⟩ rest

theorem members_cutFrom (r : Run α) (xs : List α) :
    (cutFrom start joins extend r xs).flatMap Run.members = r.members ++ xs := by
  induction xs generalizing r with
  | nil => simp [cutFrom]
  | cons x rest ih =>
    by_cases joined : joins (r.made start extend) x
    · simp [cutFrom,joined,ih]
    · simp [cutFrom,joined,ih,Run.members]

/-- The runs are the list, cut into parts. -/
theorem members_cut (xs : List α) : (cut start joins extend xs).flatMap Run.members = xs := by
  cases xs with
  | nil => rfl
  | cons x rest => simp [cut,members_cutFrom,Run.members]

end Runs

/-! ### Runs of near elements -/

section Near

variable {α β : Type} {start : α → β} {joins : β → α → Bool} {extend : β → α → β}
variable {near : α → α → Prop}

def Run.Linked (near : α → α → Prop) (r : Run α) : Prop :=
  ∀ before x after,r.members = before ++ x :: after → before ≠ [] → ∃ m ∈ before,near m x

def Run.Apart (near : α → α → Prop) (r s : Run α) : Prop :=
  ∀ m ∈ r.members,∀ x ∈ s.members,¬near m x

theorem Run.linked_single (x : α) : Run.Linked near ⟨x,[]⟩ := by
  intro before y after split some_
  have short := congrArg List.length split
  have long := List.length_pos_iff.mpr some_
  simp [members] at short
  omega

theorem Run.Linked.push {r : Run α} {x : α} (linked : r.Linked near)
    (close : ∃ m ∈ r.members,near m x) : (r.push x).Linked near := by
  intro before y after split some_
  rcases List.eq_nil_or_concat after with rfl | ⟨tail,last,rfl⟩
  · have shape : r.members ++ [x] = before ++ [y] := by simpa using split
    obtain ⟨same,last⟩ := List.append_inj' shape rfl
    simp_all
  · have shape : r.members ++ [x] = (before ++ y :: tail) ++ [last] := by simpa using split
    obtain ⟨same,_⟩ := List.append_inj' shape rfl
    exact linked before y tail same some_

def JoinsNear (start : α → β) (joins : β → α → Bool) (extend : β → α → β)
    (near : α → α → Prop) : Prop :=
  ∀ r : Run α,∀ x,joins (r.made start extend) x ↔ ∃ m ∈ r.members,near m x

theorem linked_cutFrom (faithful : JoinsNear start joins extend near) (r : Run α) (xs : List α)
    (linked : r.Linked near) : ∀ s ∈ cutFrom start joins extend r xs,s.Linked near := by
  induction xs generalizing r with
  | nil => simpa [cutFrom] using linked
  | cons x rest ih =>
    by_cases joined : joins (r.made start extend) x
    · simpa [cutFrom,joined] using ih (r.push x) (linked.push ((faithful r x).mp joined))
    · simpa [cutFrom,joined] using ⟨linked,ih ⟨x,[]⟩ (Run.linked_single x)⟩

theorem linked_cut (faithful : JoinsNear start joins extend near) (xs : List α) :
    ∀ r ∈ cut start joins extend xs,r.Linked near := by
  cases xs with
  | nil => simp [cut]
  | cons x rest => exact linked_cutFrom faithful ⟨x,[]⟩ rest (Run.linked_single x)

variable {le : α → α → Prop}

theorem apart_cutFrom (faithful : JoinsNear start joins extend near)
    (closer : ∀ m x y,near m y → le x y → near m x) (r : Run α) (xs : List α)
    (sorted : xs.Pairwise le) : (cutFrom start joins extend r xs).Pairwise (Run.Apart near) := by
  induction xs generalizing r with
  | nil => simp [cutFrom]
  | cons x rest ih =>
    have ⟨behind,sortedRest⟩ := List.pairwise_cons.mp sorted
    by_cases joined : joins (r.made start extend) x
    · simpa [cutFrom,joined] using ih (r.push x) sortedRest
    · have rest_apart := ih ⟨x,[]⟩ sortedRest
      simp only [cutFrom,joined,Bool.false_eq_true,if_false,List.pairwise_cons]
      refine ⟨fun s member m inside y there close => ?_,rest_apart⟩
      have found : y ∈ x :: rest := by
        have all := members_cutFrom start joins extend ⟨x,[]⟩ rest
        have there' : y ∈ (cutFrom start joins extend ⟨x,[]⟩ rest).flatMap Run.members :=
          List.mem_flatMap.mpr ⟨s,member,there⟩
        rw [all] at there'
        exact there'
      have close' : near m x := by
        rcases List.mem_cons.mp found with rfl | later
        · exact close
        · exact closer m x y close (behind y later)
      exact joined ((faithful r x).mpr ⟨m,inside,close'⟩)

theorem apart_cut (faithful : JoinsNear start joins extend near)
    (closer : ∀ m x y,near m y → le x y → near m x) (xs : List α)
    (sorted : xs.Pairwise le) : (cut start joins extend xs).Pairwise (Run.Apart near) := by
  cases xs with
  | nil => simp [cut]
  | cons x rest =>
    exact apart_cutFrom faithful closer ⟨x,[]⟩ rest (List.pairwise_cons.mp sorted).2

/-- An element is a run of its own if and only if nothing before it is near to it and it is near
to nothing behind it. -/
theorem alone_iff (faithful : JoinsNear start joins extend near)
    (closer : ∀ m x y,near m y → le x y → near m x)
    {before after : List α} {d : α} {r : Run α} (sorted : (before ++ d :: after).Pairwise le)
    (distinct : (before ++ d :: after).Nodup)
    (member : r ∈ cut start joins extend (before ++ d :: after)) (inside : d ∈ r.members) :
    r.rest = [] ↔ (∀ x ∈ before,¬near x d) ∧ ∀ x ∈ after,¬near d x := by
  have separate := apart_cut faithful closer _ sorted
  have whole := members_cut start joins extend (before ++ d :: after)
  have linked := linked_cut faithful _ r member
  obtain ⟨earlier,later,split⟩ := List.append_of_mem member
  obtain ⟨low,high,parts⟩ := List.append_of_mem inside
  rw [split] at separate whole
  have shape : (earlier.flatMap Run.members ++ low) ++ d :: (high ++ later.flatMap Run.members) =
      before ++ d :: after := by
    simpa [parts] using whole
  have apart := List.nodup_append.mp distinct
  obtain ⟨rfl,_,rfl⟩ := (List.append_cons_inj_of_notMem
    (fun found => apart.2.2 d found d List.mem_cons_self rfl)
    (List.nodup_cons.mp apart.2.1).1).mp shape.symm
  constructor
  · intro single
    have members : r.members = [r.first] := by simp [Run.members,single]
    obtain ⟨rfl,rfl,rfl⟩ : low = [] ∧ d = r.first ∧ high = [] := by
      cases low <;> simp_all
    have ⟨_,behind,ahead⟩ := List.pairwise_append.mp separate
    refine ⟨fun x found close => ?_,fun x found close => ?_⟩
    · simp only [List.append_nil,List.mem_flatMap] at found
      obtain ⟨s,there,of⟩ := found
      exact ahead s there r List.mem_cons_self x of _ inside close
    · simp only [List.nil_append,List.mem_flatMap] at found
      obtain ⟨s,there,of⟩ := found
      exact (List.pairwise_cons.mp behind).1 s there _ inside x of close
  · rintro ⟨first,last⟩
    cases low with
    | cons a low =>
      obtain ⟨m,there,close⟩ := linked (a :: low) d high parts (List.cons_ne_nil _ _)
      exact absurd close (first m (List.mem_append_right _ there))
    | nil =>
      cases high with
      | nil => exact (List.cons.inj parts).2
      | cons x high =>
        obtain ⟨m,there,close⟩ := linked [d] x high parts (List.cons_ne_nil _ _)
        rw [List.mem_singleton.mp there] at close
        exact absurd close (last x List.mem_cons_self)

end Near

end LocalBook
