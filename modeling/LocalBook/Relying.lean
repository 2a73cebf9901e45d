import LocalBook.Interleaving

/-! A procedure among outside writers that keep to a relation: what every such run ends with. -/
namespace LocalBook.Effect

variable {Op Op' : Type} {Res : Op → Type} {Res' : Op' → Type}
variable {ε ε' α β σ : Type}

/-- A run in which the outside changes the state before each call as `rely` allows: the calls it
makes, the outcome and the state it ends in. -/
def Woven (h : Handler Op Res σ) (rely : σ → σ → Prop) :
    Proc Op Res ε α → σ → List (Event Op σ) → Except ε α → σ → Prop
  | .done result, s, events, outcome, t => events = [] ∧ outcome = result ∧ t = s
  | .call op next, s, events, outcome, t => ∃ before rest, rely s before ∧
      events = ⟨before,op⟩ :: rest ∧
      Woven h rely (next (h op before).1) (h op before).2 rest outcome t

/-- Every such run ends as `Q` says. -/
def Relies (h : Handler Op Res σ) (rely : σ → σ → Prop) :
    Proc Op Res ε α → σ → (List (Event Op σ) → Except ε α → σ → Prop) → Prop
  | .done result, s, Q => Q [] result s
  | .call op next, s, Q => ∀ before, rely s before →
      Relies h rely (next (h op before).1) (h op before).2 fun events => Q (⟨before,op⟩ :: events)

section Rules

variable {h : Handler Op Res σ} {rely : σ → σ → Prop} {s : σ}

theorem relies_iff {p : Proc Op Res ε α} {Q : List (Event Op σ) → Except ε α → σ → Prop} :
    Relies h rely p s Q ↔
      ∀ events outcome t, Woven h rely p s events outcome t → Q events outcome t := by
  induction p generalizing s Q with
  | done result =>
    constructor
    · rintro ends events outcome t ⟨rfl,rfl,rfl⟩
      exact ends
    · exact fun all => all [] result s ⟨rfl,rfl,rfl⟩
  | call op next ih =>
    constructor
    · rintro relies events outcome t ⟨before,rest,allowed,rfl,later⟩
      exact (ih _).mp (relies before allowed) rest outcome t later
    · intro all before allowed
      apply (ih _).mpr
      exact fun rest outcome t later => all _ _ _ ⟨before,rest,allowed,rfl,later⟩

theorem Relies.mono {p : Proc Op Res ε α} {Q Q' : List (Event Op σ) → Except ε α → σ → Prop}
    (relies : Relies h rely p s Q) (weaker : ∀ events outcome t, Q events outcome t →
      Q' events outcome t) : Relies h rely p s Q' := by
  rw [relies_iff] at relies ⊢
  exact fun events outcome t woven => weaker _ _ _ (relies _ _ _ woven)

theorem Relies.and {p : Proc Op Res ε α} {Q Q' : List (Event Op σ) → Except ε α → σ → Prop}
    (first : Relies h rely p s Q) (second : Relies h rely p s Q') :
    Relies h rely p s fun events outcome t => Q events outcome t ∧ Q' events outcome t := by
  rw [relies_iff] at first second ⊢
  exact fun events outcome t woven => ⟨first _ _ _ woven,second _ _ _ woven⟩

theorem relies_andThen {p : Proc Op Res ε α} {k : Except ε α → Proc Op Res ε' β}
    {Q : List (Event Op σ) → Except ε' β → σ → Prop} :
    Relies h rely (p.andThen k) s Q ↔ Relies h rely p s fun events result t =>
      Relies h rely (k result) t fun later => Q (events ++ later) := by
  induction p generalizing s Q with
  | done result => rfl
  | call op next ih => exact forall₂_congr fun before _ => ih _

theorem relies_bind {p : Proc Op Res ε α} {f : α → Proc Op Res ε β}
    {Q : List (Event Op σ) → Except ε β → σ → Prop} :
    Relies h rely (p >>= f) s Q ↔ Relies h rely p s fun events result t => match result with
      | .ok value => Relies h rely (f value) t fun later => Q (events ++ later)
      | .error reason => Q events (.error reason) t := by
  change Relies h rely (p.andThen (Proc.onOk f)) s Q ↔ _
  rw [relies_andThen]
  refine iff_of_eq (congrArg _ (funext fun events => funext fun result => funext fun t => ?_))
  cases result with
  | ok value => rfl
  | error reason => simp [Proc.onOk,Relies]

theorem relies_tryCatch {p : Proc Op Res ε α} {handler : ε → Proc Op Res ε' α}
    {Q : List (Event Op σ) → Except ε' α → σ → Prop} :
    Relies h rely (p.tryCatch handler) s Q ↔ Relies h rely p s fun events result t =>
      match result with
      | .ok value => Q events (.ok value) t
      | .error reason => Relies h rely (handler reason) t fun later => Q (events ++ later) := by
  change Relies h rely (p.andThen (Proc.onError handler)) s Q ↔ _
  rw [relies_andThen]
  refine iff_of_eq (congrArg _ (funext fun events => funext fun result => funext fun t => ?_))
  cases result with
  | ok value => simp [Proc.onError,Relies]
  | error reason => rfl

theorem relies_perform {op : Op} {f : Res op → Proc Op Res ε β}
    {Q : List (Event Op σ) → Except ε β → σ → Prop} :
    Relies h rely (Proc.perform op >>= f) s Q ↔ ∀ before, rely s before →
      Relies h rely (f (h op before).1) (h op before).2 fun later => Q (⟨before,op⟩ :: later) :=
  Iff.rfl

/-- What the calls of a procedure and the outside keep holds of the state it ends in. -/
theorem relies_kept {P : Op → Prop} {I : σ → Prop} {p : Proc Op Res ε α} (every : Every P p)
    (calls : ∀ op t, P op → I t → I (h op t).2) (stable : ∀ t t', rely t t' → I t → I t')
    (here : I s) : Relies h rely p s fun _ _ t => I t := by
  induction p generalizing s with
  | done result => exact here
  | call op next ih =>
    intro before allowed
    exact ih _ (every.2 _) (calls op before every.1 (stable s before allowed here))

/-- What a procedure returns or raises whatever its calls answer. -/
theorem relies_of_returns {P : α → Prop} {E : ε → Prop} {p : Proc Op Res ε α}
    (returns : Returns P p) (raises : Raises E p) : Relies h rely p s fun _ result _ =>
      (∀ value,result = .ok value → P value) ∧ ∀ reason,result = .error reason → E reason := by
  induction p generalizing s with
  | done result =>
    cases result with
    | ok value => simpa [Relies] using show P value from returns
    | error reason => simpa [Relies] using show E reason from raises
  | call op next ih => exact fun before _ => ih _ (returns _) (raises _)

theorem relies_any (p : Proc Op Res ε α) : Relies h rely p s fun _ _ _ => True :=
  (relies_of_returns (returns_any p) (raises_any p)).mono fun _ _ _ _ => trivial

/-- A run in which the outside acts in one way before each call is such a run. -/
theorem woven_run {outside : σ → σ} (allowed : ∀ t,rely t (outside t)) (p : Proc Op Res ε α)
    (s : σ) : ∃ events, Woven h rely p s events
      (run (fun op t => h op (outside t)) p s).1 (run (fun op t => h op (outside t)) p s).2 := by
  induction p generalizing s with
  | done result => exact ⟨[],rfl,rfl,rfl⟩
  | call op next ih =>
    obtain ⟨events,later⟩ := ih (h op (outside s)).1 (h op (outside s)).2
    exact ⟨_,outside s,events,allowed s,rfl,later⟩

end Rules

theorem Returns.lift {ι : Op → Op'} {back : (op : Op) → Res' (ι op) → Res op} {P : α → Prop}
    {p : Proc Op Res ε α} (returns : Returns P p) : Returns P (Effect.lift ι back p) := by
  induction p with
  | done result =>
    cases result with
    | ok value => exact returns
    | error reason => trivial
  | call op next ih => exact fun response => ih _ (returns _)

end LocalBook.Effect
