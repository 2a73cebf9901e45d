import Mathlib

/-! Procedures over a call interface, with exceptions. One procedure has several
readings: the plain run, the state a crash leaves behind after some number of
calls, and the run in which one call fails. Sequencing rules are stated once for
each reading, so a component only describes its calls. -/
namespace LocalBook.Effect

variable {Op Op' : Type} {Res : Op → Type} {Res' : Op' → Type}
variable {ε ε' α β γ σ σ' : Type}

theorem ite_error_eq_ok {c : Prop} [Decidable c] {reason : ε} {r : Except ε α} {value : α} :
    (if c then .error reason else r) = .ok value ↔ ¬ c ∧ r = .ok value := by
  by_cases raised : c <;> simp [raised]

theorem mapError_eq_ok {f : ε → ε'} {r : Except ε α} {value : α} :
    r.mapError f = .ok value ↔ r = .ok value := by
  cases r <;> simp [Except.mapError]

/-- A procedure either ends, with a value or an exception, or makes a call and
continues with its response. -/
inductive Proc (Op : Type) (Res : Op → Type) (ε α : Type) where
  | done (result : Except ε α)
  | call (op : Op) (next : Res op → Proc Op Res ε α)

namespace Proc

def andThen : Proc Op Res ε α → (Except ε α → Proc Op Res ε' β) → Proc Op Res ε' β
  | .done result, k => k result
  | .call op next, k => .call op fun response => (next response).andThen k

def onOk (f : α → Proc Op Res ε β) : Except ε α → Proc Op Res ε β
  | .ok value => f value
  | .error reason => .done (.error reason)

def onError (handler : ε → Proc Op Res ε' α) : Except ε α → Proc Op Res ε' α
  | .ok value => .done (.ok value)
  | .error reason => handler reason

instance : Monad (Proc Op Res ε) where
  pure value := .done (.ok value)
  bind p f := p.andThen (onOk f)

def throw (reason : ε) : Proc Op Res ε α := .done (.error reason)

def ofExcept (result : Except ε α) : Proc Op Res ε α := .done result

/-- `try: p except e: handler e`. -/
def tryCatch (p : Proc Op Res ε α) (handler : ε → Proc Op Res ε' α) : Proc Op Res ε' α :=
  p.andThen (onError handler)

/-- `if c: raise reason`. -/
def raiseIf (c : Prop) [Decidable c] (reason : ε) : Proc Op Res ε Unit :=
  if c then throw reason else pure ()

def perform (op : Op) : Proc Op Res ε (Res op) := .call op fun response => .done (.ok response)

end Proc

abbrev Handler (Op : Type) (Res : Op → Type) (σ : Type) := (op : Op) → σ → Res op × σ

def run (h : Handler Op Res σ) : Proc Op Res ε α → σ → Except ε α × σ
  | .done result, s => (result, s)
  | .call op next, s => run h (next (h op s).1) (h op s).2

/-- The calls a plain run makes, in order. -/
def calls (h : Handler Op Res σ) : Proc Op Res ε α → σ → List Op
  | .done _, _ => []
  | .call op next, s => op :: calls h (next (h op s).1) (h op s).2

/-- The state left behind when the process dies after `n` calls. -/
def crash (h : Handler Op Res σ) : Nat → Proc Op Res ε α → σ → σ
  | 0, _, s => s
  | _ + 1, .done _, s => s
  | n + 1, .call op next, s => crash h n (next (h op s).1) (h op s).2

/-- The run in which call number `n` has no effect and answers `bad`. -/
def fault (h : Handler Op Res σ) (bad : (op : Op) → Res op) :
    Nat → Proc Op Res ε α → σ → Except ε α × σ
  | _, .done result, s => (result, s)
  | 0, .call op next, s => run h (next (bad op)) s
  | n + 1, .call op next, s => fault h bad n (next (h op s).1) (h op s).2

section Run

variable (h : Handler Op Res σ)

@[simp] theorem run_done (result : Except ε α) (s : σ) :
    run h (Proc.done result : Proc Op Res ε α) s = (result,s) := rfl

@[simp] theorem run_call (op : Op) (next : Res op → Proc Op Res ε α) (s : σ) :
    run h (.call op next) s = run h (next (h op s).1) (h op s).2 := rfl

@[simp] theorem run_pure (value : α) (s : σ) :
    run h (pure value : Proc Op Res ε α) s = (.ok value,s) := rfl

@[simp] theorem run_throw (reason : ε) (s : σ) :
    run h (Proc.throw reason : Proc Op Res ε α) s = (.error reason,s) := rfl

@[simp] theorem run_ofExcept (result : Except ε α) (s : σ) :
    run h (Proc.ofExcept result : Proc Op Res ε α) s = (result,s) := rfl

@[simp] theorem run_perform (op : Op) (s : σ) :
    run h (Proc.perform op : Proc Op Res ε (Res op)) s = (.ok (h op s).1,(h op s).2) := rfl

@[simp] theorem run_raiseIf (c : Prop) [Decidable c] (reason : ε) (s : σ) :
    run h (Proc.raiseIf c reason : Proc Op Res ε Unit) s =
      (if c then .error reason else .ok (),s) := by
  by_cases raised : c <;> simp [Proc.raiseIf,raised]

theorem run_andThen (p : Proc Op Res ε α) (k : Except ε α → Proc Op Res ε' β) (s : σ) :
    run h (p.andThen k) s = run h (k (run h p s).1) (run h p s).2 := by
  induction p generalizing s with
  | done result => rfl
  | call op next ih => exact ih _ _

theorem run_bind (p : Proc Op Res ε α) (f : α → Proc Op Res ε β) (s : σ) :
    run h (p >>= f) s = match run h p s with
      | (.ok value,s') => run h (f value) s'
      | (.error reason,s') => (.error reason,s') := by
  change run h (p.andThen (Proc.onOk f)) s = _
  rw [run_andThen]
  rcases run h p s with ⟨result | result,s'⟩ <;> rfl

theorem run_bind_ok {p : Proc Op Res ε α} {f : α → Proc Op Res ε β} {s s' : σ} {value : α}
    (first : run h p s = (.ok value,s')) : run h (p >>= f) s = run h (f value) s' := by
  rw [run_bind,first]

theorem run_bind_error {p : Proc Op Res ε α} {f : α → Proc Op Res ε β} {s s' : σ} {reason : ε}
    (first : run h p s = (.error reason,s')) : run h (p >>= f) s = (.error reason,s') := by
  rw [run_bind,first]

theorem run_tryCatch (p : Proc Op Res ε α) (handler : ε → Proc Op Res ε' α) (s : σ) :
    run h (p.tryCatch handler) s = match run h p s with
      | (.ok value,s') => (.ok value,s')
      | (.error reason,s') => run h (handler reason) s' := by
  unfold Proc.tryCatch
  rw [run_andThen]
  rcases run h p s with ⟨result | result,s'⟩ <;> rfl

/-- A successful sequence has a successful first half. -/
theorem run_bind_eq_ok {p : Proc Op Res ε α} {f : α → Proc Op Res ε β} {s t : σ} {value : β}
    (whole : run h (p >>= f) s = (.ok value,t)) :
    ∃ first s', run h p s = (.ok first,s') ∧ run h (f first) s' = (.ok value,t) := by
  rw [run_bind] at whole
  rcases heq : run h p s with ⟨result | result,s'⟩
  · simp [heq] at whole
  · rw [heq] at whole
    exact ⟨result,s',rfl,whole⟩

end Run

/-- States a crash can leave behind, whatever the number of calls made before it. -/
def Visits (h : Handler Op Res σ) (p : Proc Op Res ε α) (s t : σ) : Prop :=
  ∃ n, crash h n p s = t

section Crash

variable (h : Handler Op Res σ)

@[simp] theorem crash_zero (p : Proc Op Res ε α) (s : σ) : crash h 0 p s = s := by
  cases p <;> rfl

@[simp] theorem crash_done (n : Nat) (result : Except ε α) (s : σ) :
    crash h n (Proc.done result : Proc Op Res ε α) s = s := by
  cases n <;> rfl

theorem visits_start (p : Proc Op Res ε α) (s : σ) : Visits h p s s := ⟨0,crash_zero h p s⟩

@[simp] theorem visits_done (result : Except ε α) (s t : σ) :
    Visits h (Proc.done result : Proc Op Res ε α) s t ↔ t = s := by
  constructor
  · rintro ⟨n,rfl⟩; simp
  · rintro rfl; exact visits_start h _ _

@[simp] theorem visits_pure (value : α) (s t : σ) :
    Visits h (pure value : Proc Op Res ε α) s t ↔ t = s := visits_done h (.ok value) s t

@[simp] theorem visits_throw (reason : ε) (s t : σ) :
    Visits h (Proc.throw reason : Proc Op Res ε α) s t ↔ t = s := visits_done h (.error reason) s t

@[simp] theorem visits_ofExcept (result : Except ε α) (s t : σ) :
    Visits h (Proc.ofExcept result : Proc Op Res ε α) s t ↔ t = s := visits_done h result s t

@[simp] theorem visits_raiseIf (c : Prop) [Decidable c] (reason : ε) (s t : σ) :
    Visits h (Proc.raiseIf c reason : Proc Op Res ε Unit) s t ↔ t = s := by
  by_cases raised : c <;> simp [Proc.raiseIf,raised]

theorem visits_call (op : Op) (next : Res op → Proc Op Res ε α) (s t : σ) :
    Visits h (.call op next) s t ↔ t = s ∨ Visits h (next (h op s).1) (h op s).2 t := by
  constructor
  · rintro ⟨n,rfl⟩
    cases n with
    | zero => exact .inl (crash_zero h _ _)
    | succ n => exact .inr ⟨n,rfl⟩
  · rintro (rfl | ⟨n,rfl⟩)
    · exact visits_start h _ _
    · exact ⟨n + 1,rfl⟩

@[simp] theorem visits_perform (op : Op) (s t : σ) :
    Visits h (Proc.perform op : Proc Op Res ε (Res op)) s t ↔ t = s ∨ t = (h op s).2 := by
  rw [Proc.perform,visits_call,visits_done]

theorem visits_end (p : Proc Op Res ε α) (s : σ) : Visits h p s (run h p s).2 := by
  induction p generalizing s with
  | done result => simp
  | call op next ih => exact (visits_call h op next s _).mpr (.inr (ih _ _))

/-- A crash of a sequence falls in its first half or, after all of it, in its second. -/
theorem visits_andThen (p : Proc Op Res ε α) (k : Except ε α → Proc Op Res ε' β) (s t : σ) :
    Visits h (p.andThen k) s t ↔
      Visits h p s t ∨ Visits h (k (run h p s).1) (run h p s).2 t := by
  induction p generalizing s with
  | done result =>
    simp only [Proc.andThen,visits_done,run_done]
    constructor
    · exact .inr
    · rintro (rfl | later)
      · exact visits_start h _ _
      · exact later
  | call op next ih =>
    simp only [Proc.andThen,visits_call,ih,run_call,or_assoc]

theorem visits_bind (p : Proc Op Res ε α) (f : α → Proc Op Res ε β) (s t : σ) :
    Visits h (p >>= f) s t ↔ Visits h p s t ∨
      ∃ value, (run h p s).1 = .ok value ∧ Visits h (f value) (run h p s).2 t := by
  change Visits h (p.andThen (Proc.onOk f)) s t ↔ _
  rw [visits_andThen]
  cases outcome : (run h p s).1 with
  | ok value => simp [Proc.onOk]
  | error reason =>
    simp only [Proc.onOk,visits_done,reduceCtorEq,false_and,exists_false,or_false]
    constructor
    · rintro (first | rfl)
      · exact first
      · exact visits_end h p s
    · exact .inl

end Crash

section Fault

variable (h : Handler Op Res σ) (bad : (op : Op) → Res op)

@[simp] theorem calls_done (result : Except ε α) (s : σ) :
    calls h (Proc.done result : Proc Op Res ε α) s = [] := rfl

@[simp] theorem calls_call (op : Op) (next : Res op → Proc Op Res ε α) (s : σ) :
    calls h (.call op next) s = op :: calls h (next (h op s).1) (h op s).2 := rfl

/-- A failure that never comes leaves the plain run. -/
theorem fault_of_length_le (p : Proc Op Res ε α) (s : σ) (n : Nat)
    (after : (calls h p s).length ≤ n) : fault h bad n p s = run h p s := by
  induction p generalizing s n with
  | done result => cases n <;> rfl
  | call op next ih =>
    cases n with
    | zero => simp at after
    | succ n => exact ih _ _ _ (by simpa using after)

/-- A crash after the last call leaves the final state. -/
theorem crash_of_length_le (p : Proc Op Res ε α) (s : σ) (n : Nat)
    (after : (calls h p s).length ≤ n) : crash h n p s = (run h p s).2 := by
  induction p generalizing s n with
  | done result => exact crash_done h n result s
  | call op next ih =>
    cases n with
    | zero => simp at after
    | succ n => exact ih _ _ _ (by simpa using after)

/-- Whatever single call fails, the run ends as `Q` says. The first argument of `Q`
is the call that failed, if one did, with the state it found. -/
def Ensures : Option (Op × σ) → Proc Op Res ε α → σ →
    (Option (Op × σ) → Except ε α → σ → Prop) → Prop
  | failed, .done result, s, Q => Q failed result s
  | some before, .call op next, s, Q =>
    Ensures (some before) (next (h op s).1) (h op s).2 Q
  | none, .call op next, s, Q =>
    Ensures none (next (h op s).1) (h op s).2 Q ∧ Ensures (some (op,s)) (next (bad op)) s Q

variable {h bad}

@[simp] theorem ensures_done (failed : Option (Op × σ)) (result : Except ε α) (s : σ)
    (Q : Option (Op × σ) → Except ε α → σ → Prop) :
    Ensures h bad failed (.done result) s Q ↔ Q failed result s := by
  cases failed <;> rfl

/-- After the failure the run is the plain one. -/
@[simp] theorem ensures_some (before : Op × σ) (p : Proc Op Res ε α) (s : σ)
    (Q : Option (Op × σ) → Except ε α → σ → Prop) :
    Ensures h bad (some before) p s Q ↔ Q (some before) (run h p s).1 (run h p s).2 := by
  induction p generalizing s with
  | done result => rfl
  | call op next ih => exact ih _ _

theorem ensures_andThen (failed : Option (Op × σ)) (p : Proc Op Res ε α)
    (k : Except ε α → Proc Op Res ε' β) (s : σ)
    (Q : Option (Op × σ) → Except ε' β → σ → Prop) :
    Ensures h bad failed (p.andThen k) s Q ↔
      Ensures h bad failed p s fun later result t => Ensures h bad later (k result) t Q := by
  induction p generalizing failed s with
  | done result => simp [Proc.andThen]
  | call op next ih =>
    cases failed with
    | none => exact and_congr (ih _ _ _) (ih _ _ _)
    | some before => exact ih _ _ _

theorem ensures_bind (failed : Option (Op × σ)) (p : Proc Op Res ε α)
    (f : α → Proc Op Res ε β) (s : σ) (Q : Option (Op × σ) → Except ε β → σ → Prop) :
    Ensures h bad failed (p >>= f) s Q ↔
      Ensures h bad failed p s fun later result t => match result with
        | .ok value => Ensures h bad later (f value) t Q
        | .error reason => Q later (.error reason) t := by
  change Ensures h bad failed (p.andThen (Proc.onOk f)) s Q ↔ _
  rw [ensures_andThen]
  refine iff_of_eq (congrArg _ (funext fun later => funext fun result => funext fun t => ?_))
  cases result with
  | ok value => rfl
  | error reason => exact propext (ensures_done later (.error reason) t Q)

theorem ensures_tryCatch (failed : Option (Op × σ)) (p : Proc Op Res ε α)
    (handler : ε → Proc Op Res ε' α) (s : σ) (Q : Option (Op × σ) → Except ε' α → σ → Prop) :
    Ensures h bad failed (p.tryCatch handler) s Q ↔
      Ensures h bad failed p s fun later result t => match result with
        | .ok value => Q later (.ok value) t
        | .error reason => Ensures h bad later (handler reason) t Q := by
  unfold Proc.tryCatch
  rw [ensures_andThen]
  refine iff_of_eq (congrArg _ (funext fun later => funext fun result => funext fun t => ?_))
  cases result with
  | ok value => exact propext (ensures_done later (.ok value) t Q)
  | error reason => rfl

theorem Ensures.mono {failed : Option (Op × σ)} {p : Proc Op Res ε α} {s : σ}
    {Q Q' : Option (Op × σ) → Except ε α → σ → Prop} (ensures : Ensures h bad failed p s Q)
    (weaker : ∀ later result t, Q later result t → Q' later result t) :
    Ensures h bad failed p s Q' := by
  induction p generalizing failed s with
  | done result => cases failed <;> exact weaker _ _ _ ensures
  | call op next ih =>
    cases failed with
    | none => exact ⟨ih _ ensures.1,ih _ ensures.2⟩
    | some before => exact ih _ ensures

/-- The recursive condition speaks of exactly the plain run and the runs with one failure. -/
theorem ensures_iff (p : Proc Op Res ε α) (s : σ)
    (Q : Option (Op × σ) → Except ε α → σ → Prop) :
    Ensures h bad none p s Q ↔ Q none (run h p s).1 (run h p s).2 ∧
      ∀ n op, (calls h p s)[n]? = some op →
        Q (some (op,crash h n p s)) (fault h bad n p s).1 (fault h bad n p s).2 := by
  induction p generalizing s with
  | done result => simp [Ensures]
  | call op next ih =>
    simp only [Ensures,ih,ensures_some,run_call,calls_call]
    constructor
    · rintro ⟨⟨plain,later⟩,here⟩
      refine ⟨plain,fun n op' found => ?_⟩
      cases n with
      | zero =>
        simp only [List.getElem?_cons_zero,Option.some.injEq] at found
        subst found
        exact here
      | succ n => exact later n op' (by simpa using found)
    · rintro ⟨plain,each⟩
      exact ⟨⟨plain,fun n op' found => each (n + 1) op' (by simpa using found)⟩,
        each 0 op (by simp)⟩

def Strict (bad : (op : Op) → Res op) : Proc Op Res ε α → Prop
  | .done _ => True
  | .call op next =>
    (∃ reason, next (bad op) = .done (.error reason)) ∧ ∀ response, Strict bad (next response)

@[simp] theorem strict_pure (value : α) : Strict bad (pure value : Proc Op Res ε α) := trivial

@[simp] theorem strict_throw (reason : ε) :
    Strict bad (Proc.throw reason : Proc Op Res ε α) := trivial

@[simp] theorem strict_ofExcept (result : Except ε α) :
    Strict bad (Proc.ofExcept result : Proc Op Res ε α) := trivial

@[simp] theorem strict_raiseIf (c : Prop) [Decidable c] (reason : ε) :
    Strict bad (Proc.raiseIf c reason : Proc Op Res ε Unit) := by
  by_cases raised : c <;> simp [Proc.raiseIf,raised]

theorem Strict.bind {p : Proc Op Res ε α} {f : α → Proc Op Res ε β}
    (first : Strict bad p) (second : ∀ value, Strict bad (f value)) : Strict bad (p >>= f) := by
  induction p with
  | done result =>
    cases result with
    | ok value => exact second value
    | error reason => trivial
  | call op next ih =>
    obtain ⟨⟨reason,raises⟩,rest⟩ := first
    refine ⟨⟨reason,?_⟩,fun response => ih response (rest response)⟩
    change (next (bad op)).andThen _ = _
    rw [raises]
    rfl

end Fault

def lift (ι : Op → Op') (back : (op : Op) → Res' (ι op) → Res op) :
    Proc Op Res ε α → Proc Op' Res' ε α
  | .done result => .done result
  | .call op next => .call (ι op) fun response => lift ι back (next (back op response))

/-- Whatever the calls answer, a returned value satisfies `P`. -/
def Returns (P : α → Prop) : Proc Op Res ε α → Prop
  | .done (.ok value) => P value
  | .done (.error _) => True
  | .call _ next => ∀ response, Returns P (next response)

@[simp] theorem returns_pure {P : α → Prop} {value : α} :
    Returns P (pure value : Proc Op Res ε α) ↔ P value := Iff.rfl

theorem Returns.bind {P : α → Prop} {P' : β → Prop} {p : Proc Op Res ε α}
    {f : α → Proc Op Res ε β} (first : Returns P p)
    (second : ∀ value, P value → Returns P' (f value)) : Returns P' (p >>= f) := by
  induction p with
  | done result =>
    cases result with
    | ok value => exact second value first
    | error reason => trivial
  | call op next ih => exact fun response => ih response (first response)

theorem returns_any (p : Proc Op Res ε α) : Returns (fun _ => True) p := by
  induction p with
  | done result => cases result <;> trivial
  | call op next ih => exact ih

theorem Returns.last {P' : β → Prop} {p : Proc Op Res ε α} {f : α → Proc Op Res ε β}
    (second : ∀ value, Returns P' (f value)) : Returns P' (p >>= f) :=
  (returns_any p).bind fun value _ => second value

theorem Returns.ofExcept {P : α → Prop} {result : Except ε α}
    (value : ∀ v, result = .ok v → P v) :
    Returns P (Proc.ofExcept result : Proc Op Res ε α) := by
  cases result with
  | ok v => exact value v rfl
  | error reason => trivial

/-- Whatever the calls answer, a raised exception satisfies `E`. -/
def Raises (E : ε → Prop) : Proc Op Res ε α → Prop
  | .done (.ok _) => True
  | .done (.error reason) => E reason
  | .call _ next => ∀ response, Raises E (next response)

theorem Raises.bind {E : ε → Prop} {p : Proc Op Res ε α} {f : α → Proc Op Res ε β}
    (first : Raises E p) (second : ∀ value, Raises E (f value)) : Raises E (p >>= f) := by
  induction p with
  | done result =>
    cases result with
    | ok value => exact second value
    | error reason => exact first
  | call op next ih => exact fun response => ih response (first response)

theorem raises_any (p : Proc Op Res ε α) : Raises (fun _ => True) p := by
  induction p with
  | done result => cases result <;> trivial
  | call op next ih => exact ih

theorem raises_perform {E : ε → Prop} {op : Op} {f : Res op → Proc Op Res ε β}
    (rest : ∀ response, Raises E (f response)) : Raises E (Proc.perform op >>= f) := rest

/-- A component of a larger state, with the laws of a well-behaved lens. -/
structure Part (σ' σ : Type) where
  get : σ' → σ
  set : σ → σ' → σ'
  get_set : ∀ s t, get (set s t) = s
  set_set : ∀ s s' t, set s (set s' t) = set s t
  set_get : ∀ t, set (get t) t = t

section Lift

variable {h : Handler Op Res σ} {h' : Handler Op' Res' σ'} {ι : Op → Op'}
variable {back : (op : Op) → Res' (ι op) → Res op} (part : Part σ' σ)
variable (agree : ∀ op t, (back op (h' (ι op) t).1,(h' (ι op) t).2) =
  ((h op (part.get t)).1,part.set (h op (part.get t)).2 t))
include agree

theorem run_lift (p : Proc Op Res ε α) (t : σ') :
    run h' (lift ι back p) t =
      ((run h p (part.get t)).1,part.set (run h p (part.get t)).2 t) := by
  induction p generalizing t with
  | done result => simp [lift,part.set_get]
  | call op next ih =>
    have step := Prod.mk.inj (agree op t)
    simp only [lift,run_call,ih,step.1,step.2,part.get_set,part.set_set]

theorem visits_lift (p : Proc Op Res ε α) (t u : σ') :
    Visits h' (lift ι back p) t u ↔ ∃ s, Visits h p (part.get t) s ∧ u = part.set s t := by
  induction p generalizing t with
  | done result => simp [lift,part.set_get]
  | call op next ih =>
    have step := Prod.mk.inj (agree op t)
    simp only [lift,visits_call,ih,step.1,step.2,part.get_set,part.set_set]
    constructor
    · rintro (rfl | ⟨s,visit,rfl⟩)
      · exact ⟨part.get u,.inl rfl,(part.set_get u).symm⟩
      · exact ⟨s,.inr visit,rfl⟩
    · rintro ⟨s,rfl | visit,rfl⟩
      · exact .inl (part.set_get t)
      · exact .inr ⟨s,visit,rfl⟩

end Lift

section Look

variable {h : Handler Op' Res' σ} {ι : Op → Op'} {back : (op : Op) → Res' (ι op) → Res op}
variable {answer : (op : Op) → σ → Res op} {bad : (op : Op') → Res' op}

/-- The outcome of a procedure whose calls only look at a state. -/
def eval (answer : (op : Op) → σ → Res op) : Proc Op Res ε α → σ → Except ε α
  | .done result, _ => result
  | .call op next, s => eval answer (next (answer op s)) s

@[simp] theorem eval_done (result : Except ε α) (s : σ) :
    eval answer (.done result : Proc Op Res ε α) s = result := rfl

@[simp] theorem eval_pure (value : α) (s : σ) :
    eval answer (pure value : Proc Op Res ε α) s = .ok value := rfl

@[simp] theorem eval_throw (reason : ε) (s : σ) :
    eval answer (Proc.throw reason : Proc Op Res ε α) s = .error reason := rfl

@[simp] theorem eval_ofExcept (result : Except ε α) (s : σ) :
    eval answer (Proc.ofExcept result : Proc Op Res ε α) s = result := rfl

@[simp] theorem eval_perform (op : Op) (s : σ) :
    eval answer (Proc.perform op : Proc Op Res ε (Res op)) s = .ok (answer op s) := rfl

@[simp] theorem eval_raiseIf (c : Prop) [Decidable c] (reason : ε) (s : σ) :
    eval answer (Proc.raiseIf c reason : Proc Op Res ε Unit) s =
      if c then .error reason else .ok () := by
  by_cases raised : c <;> simp [Proc.raiseIf,raised]

theorem eval_andThen (p : Proc Op Res ε α) (k : Except ε α → Proc Op Res ε' β) (s : σ) :
    eval answer (p.andThen k) s = eval answer (k (eval answer p s)) s := by
  induction p with
  | done result => rfl
  | call op next ih => exact ih _

theorem eval_bind (p : Proc Op Res ε α) (f : α → Proc Op Res ε β) (s : σ) :
    eval answer (p >>= f) s = match eval answer p s with
      | .ok value => eval answer (f value) s
      | .error reason => .error reason := by
  change eval answer (p.andThen (Proc.onOk f)) s = _
  rw [eval_andThen]
  cases eval answer p s <;> rfl

@[simp] theorem eval_bind_eq_ok {p : Proc Op Res ε α} {f : α → Proc Op Res ε β} {s : σ}
    {value : β} : eval answer (p >>= f) s = .ok value ↔
      ∃ first, eval answer p s = .ok first ∧ eval answer (f first) s = .ok value := by
  rw [eval_bind]
  cases eval answer p s <;> simp

theorem Returns.eval {P : α → Prop} {p : Proc Op Res ε α} (returns : Returns P p) {s : σ}
    {value : α} (found : eval answer p s = .ok value) : P value := by
  induction p with
  | done result =>
    obtain rfl : result = .ok value := found
    exact returns
  | call op next ih => exact ih _ (returns _) found

variable (looks : ∀ op s, (back op (h (ι op) s).1,(h (ι op) s).2) = (answer op s,s))
include looks

theorem run_look (p : Proc Op Res ε α) (s : σ) :
    run h (lift ι back p) s = (eval answer p s,s) := by
  induction p with
  | done result => rfl
  | call op next ih =>
    have step := Prod.mk.inj (looks op s)
    simp only [lift,run_call,eval,step.1,step.2,ih]

/-- A failed look may change the outcome but not the state. -/
theorem ensures_look (p : Proc Op Res ε α) (s : σ)
    (Q : Option (Op' × σ) → Except ε α → σ → Prop)
    {P : α → Prop} (returns : Returns P p) (plain : Q none (eval answer p s) s)
    (failing : ∀ op result, (∀ value, result = .ok value → P value) →
      Q (some (ι op,s)) result s) :
    Ensures h bad none (lift ι back p) s Q := by
  induction p with
  | done result => exact plain
  | call op next ih =>
    have step := Prod.mk.inj (looks op s)
    refine ⟨?_,?_⟩
    · simp only [step.1,step.2]
      exact ih _ (returns _) plain
    · rw [ensures_some,run_look looks]
      exact failing _ _ fun value found => (returns _).eval found

/-- A failed look of a strict procedure is an exception. -/
theorem ensures_strictLook {E : ε → Prop} {p : Proc Op Res ε α}
    (strict : Strict (fun op => back op (bad (ι op))) p) (raises : Raises E p) (s : σ)
    (Q : Option (Op' × σ) → Except ε α → σ → Prop)
    (plain : Q none (eval answer p s) s)
    (failing : ∀ op reason, E reason → Q (some (ι op,s)) (.error reason) s) :
    Ensures h bad none (lift ι back p) s Q := by
  induction p with
  | done result => exact plain
  | call op next ih =>
    have step := Prod.mk.inj (looks op s)
    obtain ⟨⟨reason,fails⟩,rest⟩ := strict
    refine ⟨?_,?_⟩
    · simp only [step.1,step.2]
      exact ih _ (rest _) (raises _) plain
    · have known := raises (back op (bad (ι op)))
      simp only [fails] at known
      simp only [fails,lift,ensures_done]
      exact failing op reason known

end Look

end LocalBook.Effect
