import LocalBook.Effect

/-! A procedure among outside writers: before each call the state may change in any way.
A monitor follows the calls and what they answer; what it demands of a procedure for every
answer holds of every interleaved run. -/
namespace LocalBook.Effect

variable {Op Op' : Type} {Res : Op → Type} {Res' : Op' → Type}
variable {ε ε' α β σ τ : Type}

structure Event (Op σ : Type) where
  before : σ
  op : Op

def weave (h : Handler Op Res σ) : List (σ → σ) → Proc Op Res ε α → σ → List (Event Op σ)
  | _, .done _, _ => []
  | outside, .call op next, s =>
    let before := outside.headD id s
    ⟨before,op⟩ :: weave h outside.tail (next (h op before).1) (h op before).2

/-- Every call of the procedure satisfies `P`, whatever the calls answer. -/
def Every (P : Op → Prop) : Proc Op Res ε α → Prop
  | .done _ => True
  | .call op next => P op ∧ ∀ response, Every P (next response)

section Every

variable {P : Op → Prop}

@[simp] theorem every_pure (value : α) : Every P (pure value : Proc Op Res ε α) := trivial

@[simp] theorem every_throw (reason : ε) : Every P (Proc.throw reason : Proc Op Res ε α) := trivial

@[simp] theorem every_ofExcept (result : Except ε α) :
    Every P (Proc.ofExcept result : Proc Op Res ε α) := trivial

@[simp] theorem every_raiseIf (c : Prop) [Decidable c] (reason : ε) :
    Every P (Proc.raiseIf c reason : Proc Op Res ε Unit) := by
  by_cases raised : c <;> simp [Proc.raiseIf,raised]

theorem every_perform {op : Op} (allowed : P op) :
    Every P (Proc.perform op : Proc Op Res ε (Res op)) := ⟨allowed,fun _ => trivial⟩

theorem Every.andThen {p : Proc Op Res ε α} {k : Except ε α → Proc Op Res ε' β}
    (first : Every P p) (second : ∀ result, Every P (k result)) : Every P (p.andThen k) := by
  induction p with
  | done result => exact second result
  | call op next ih => exact ⟨first.1,fun response => ih response (first.2 response)⟩

theorem Every.bind {p : Proc Op Res ε α} {f : α → Proc Op Res ε β}
    (first : Every P p) (second : ∀ value, Every P (f value)) : Every P (p >>= f) :=
  first.andThen fun
    | .ok value => second value
    | .error _ => trivial

theorem Every.tryCatch {p : Proc Op Res ε α} {handler : ε → Proc Op Res ε' α}
    (first : Every P p) (second : ∀ reason, Every P (handler reason)) :
    Every P (p.tryCatch handler) :=
  first.andThen fun
    | .ok _ => trivial
    | .error reason => second reason

theorem Every.lift {Q : Op' → Prop} {ι : Op → Op'} {back : (op : Op) → Res' (ι op) → Res op}
    {p : Proc Op Res ε α} (every : Every P p) (sends : ∀ op, P op → Q (ι op)) :
    Every Q (Effect.lift ι back p) := by
  induction p with
  | done result => trivial
  | call op next ih => exact ⟨sends op every.1,fun response => ih _ (every.2 _)⟩

theorem Every.mono {Q : Op → Prop} {p : Proc Op Res ε α} (every : Every P p)
    (weaker : ∀ op, P op → Q op) : Every Q p := by
  induction p with
  | done result => trivial
  | call op next ih => exact ⟨weaker op every.1,fun response => ih response (every.2 response)⟩

theorem every_any (p : Proc Op Res ε α) : Every (fun _ => True) p := by
  induction p with
  | done result => trivial
  | call op next ih => exact ⟨trivial,ih⟩

end Every

/-- Each call is one the monitor allows in its state, and at the end its state and the outcome
are as `Q` says. -/
def Monitored (allowed : τ → Op → Prop) (advance : τ → (op : Op) → Res op → τ) :
    τ → Proc Op Res ε α → (τ → Except ε α → Prop) → Prop
  | t, .done result, Q => Q t result
  | t, .call op next, Q =>
    allowed t op ∧ ∀ response, Monitored allowed advance (advance t op response) (next response) Q

def Watched (h : Handler Op Res σ) (allowed : τ → Op → Prop)
    (advance : τ → (op : Op) → Res op → τ) : τ → List (Event Op σ) → Prop
  | _, [] => True
  | t, e :: rest =>
    allowed t e.op ∧ Watched h allowed advance (advance t e.op (h e.op e.before).1) rest

section Monitored

variable {h : Handler Op Res σ} {allowed : τ → Op → Prop}
variable {advance : τ → (op : Op) → Res op → τ} {t : τ}

theorem monitored_andThen {p : Proc Op Res ε α} {k : Except ε α → Proc Op Res ε' β}
    {Q : τ → Except ε' β → Prop} :
    Monitored allowed advance t (p.andThen k) Q ↔
      Monitored allowed advance t p fun t' result => Monitored allowed advance t' (k result) Q := by
  induction p generalizing t with
  | done result => rfl
  | call op next ih => exact and_congr_right fun _ => forall_congr' fun response => ih response

theorem Monitored.mono {p : Proc Op Res ε α} {Q Q' : τ → Except ε α → Prop}
    (monitored : Monitored allowed advance t p Q)
    (weaker : ∀ t' result, Q t' result → Q' t' result) : Monitored allowed advance t p Q' := by
  induction p generalizing t with
  | done result => exact weaker t result monitored
  | call op next ih => exact ⟨monitored.1,fun response => ih response (monitored.2 response)⟩

theorem Monitored.bind {p : Proc Op Res ε α} {f : α → Proc Op Res ε β}
    {Q : τ → Except ε α → Prop} {Q' : τ → Except ε β → Prop}
    (first : Monitored allowed advance t p Q)
    (second : ∀ t' value, Q t' (.ok value) → Monitored allowed advance t' (f value) Q')
    (raised : ∀ t' reason, Q t' (.error reason) → Q' t' (.error reason)) :
    Monitored allowed advance t (p >>= f) Q' := by
  refine monitored_andThen.mpr (first.mono fun t' result ends => ?_)
  cases result with
  | ok value => exact second t' value ends
  | error reason => exact raised t' reason ends

theorem monitored_perform {op : Op} {f : Res op → Proc Op Res ε β} {Q : τ → Except ε β → Prop}
    (free : allowed t op)
    (rest : ∀ response, Monitored allowed advance (advance t op response) (f response) Q) :
    Monitored allowed advance t (Proc.perform op >>= f) Q := ⟨free,rest⟩

/-- A procedure whose calls are always allowed. -/
theorem monitored_of_every {P : Op → Prop} {p : Proc Op Res ε α} (every : Every P p)
    (free : ∀ t op, P op → allowed t op) :
    Monitored allowed advance t p fun _ _ => True := by
  induction p generalizing t with
  | done result => trivial
  | call op next ih =>
    exact ⟨free t op every.1,fun response => ih response (every.2 response)⟩

/-- A procedure whose calls are always allowed and tell the monitor nothing. -/
theorem monitored_steady {P : Op → Prop} {p : Proc Op Res ε α} (every : Every P p)
    (free : ∀ t op, P op → allowed t op) (blind : ∀ t op r, P op → advance t op r = t) :
    Monitored allowed advance t p fun t' _ => t' = t := by
  induction p with
  | done result => rfl
  | call op next ih =>
    refine ⟨free t op every.1,fun response => ?_⟩
    rw [blind t op response every.1]
    exact ih response (every.2 response)

theorem monitored_of_returns {R : α → Prop} {p : Proc Op Res ε α} (returns : Returns R p)
    (free : ∀ t op, allowed t op) :
    Monitored allowed advance t p fun _ result => ∀ value, result = .ok value → R value := by
  induction p generalizing t with
  | done result =>
    intro value same
    rw [same] at returns
    exact returns
  | call op next ih => exact ⟨free t op,fun response => ih response (returns response)⟩

/-- What the monitor demands for every answer holds of every interleaved run. -/
theorem watched_of_monitored {p : Proc Op Res ε α} {Q : τ → Except ε α → Prop}
    (monitored : Monitored allowed advance t p Q) (outside : List (σ → σ)) (s : σ) :
    Watched h allowed advance t (weave h outside p s) := by
  induction p generalizing t outside s with
  | done result => trivial
  | call op next ih => exact ⟨monitored.1,ih _ (monitored.2 _) _ _⟩

end Monitored

/-! ### Ends of runs -/

/-- How a run ends in which the outside changes the state before each call. -/
def outcome (h : Handler Op Res σ) : List (σ → σ) → Proc Op Res ε α → σ → Except ε α
  | _, .done result, _ => result
  | outside, .call op next, s =>
    let before := outside.headD id s
    outcome h outside.tail (next (h op before).1) (h op before).2

def followed (h : Handler Op Res σ) (advance : τ → (op : Op) → Res op → τ) :
    τ → List (Event Op σ) → τ
  | t, [] => t
  | t, e :: rest => followed h advance (advance t e.op (h e.op e.before).1) rest

/-- What a monitor finds at the end of every procedure run, it finds at the end of this one. -/
theorem ends_of_monitored {h : Handler Op Res σ} {allowed : τ → Op → Prop}
    {advance : τ → (op : Op) → Res op → τ} {t : τ} {p : Proc Op Res ε α}
    {Q : τ → Except ε α → Prop} (monitored : Monitored allowed advance t p Q)
    (outside : List (σ → σ)) (s : σ) :
    Q (followed h advance t (weave h outside p s)) (outcome h outside p s) := by
  induction p generalizing t outside s with
  | done result => exact monitored
  | call op next ih => exact ih _ (monitored.2 _) _ _

theorem outcome_of_returns {h : Handler Op Res σ} {R : α → Prop} {p : Proc Op Res ε α}
    (returns : Returns R p) (outside : List (σ → σ)) (s : σ) {value : α}
    (ok : outcome h outside p s = .ok value) : R value := by
  induction p generalizing outside s with
  | done result =>
    obtain rfl : result = .ok value := ok
    exact returns
  | call op next ih => exact ih _ (returns _) _ _ ok

end LocalBook.Effect
