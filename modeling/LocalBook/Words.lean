import Mathlib

/-! The words of a list: its longest runs of inner elements. Some words are neighbours among the
words of a list exactly when they are spelt out at one place of it, with only outer elements
between them and none but outer ones next to them. -/
namespace LocalBook

variable {α β : Type} (inner : α → Bool)

def words (s : List α) : List (List α) :=
  (s.splitOnP fun x => !inner x).filter fun word => !word.isEmpty

structure IsWord (word : List α) : Prop where
  nonempty : word ≠ []
  inner : ∀ x ∈ word,inner x = true

/-- The words stand in order, with nothing but outer elements between them. -/
inductive Spelt : List (List α) → List α → Prop where
  | last {word : List α} (isWord : IsWord inner word) : Spelt [word] word
  | next {word gap rest : List α} {others : List (List α)} (isWord : IsWord inner word)
    (some' : gap ≠ []) (outer : ∀ x ∈ gap,inner x = false) (later : Spelt others rest) :
    Spelt (word :: others) (word ++ gap ++ rest)

def EndsOuter (s : List α) : Prop := ∀ x,s.getLast? = some x → inner x = false

def StartsOuter (s : List α) : Prop := ∀ x,s.head? = some x → inner x = false

variable {inner} {s word gap rest : List α}

@[simp] theorem words_nil : words inner [] = [] := by
  simp [words]

theorem words_append_outer {x : α} (outer : inner x = false) (a b : List α) :
    words inner (a ++ x :: b) = words inner a ++ words inner b := by
  rw [words,List.splitOnP_append_cons _ _ (by simpa using outer),List.filter_append]
  rfl

theorem words_cons_outer {x : α} (outer : inner x = false) (s : List α) :
    words inner (x :: s) = words inner s := by
  simpa using words_append_outer outer [] s

theorem words_of_isWord (isWord : IsWord inner word) : words inner word = [word] := by
  rw [words,List.splitOnP_eq_singleton]
  · simp [isWord.nonempty]
  · intro x found
    simp [isWord.inner x found]

theorem words_outer_append (outer : ∀ x ∈ gap,inner x = false) (s : List α) :
    words inner (gap ++ s) = words inner s := by
  induction gap with
  | nil => rfl
  | cons x rest ih =>
    rw [List.cons_append,words_cons_outer (outer x List.mem_cons_self)]
    exact ih fun y found => outer y (List.mem_cons_of_mem _ found)

/-- Words do not run on past an outer element. -/
theorem words_append {a b : List α} (apart : EndsOuter inner a ∨ StartsOuter inner b) :
    words inner (a ++ b) = words inner a ++ words inner b := by
  rcases apart with ends | starts
  · rcases List.eq_nil_or_concat' a with rfl | ⟨front,x,rfl⟩
    · simp
    · have outer := ends x (by simp)
      rw [List.append_assoc,List.singleton_append,words_append_outer outer,
        words_append_outer outer,words_nil,List.append_nil]
  · cases b with
    | nil => simp
    | cons x rest =>
      have outer := starts x rfl
      rw [words_append_outer outer,words_cons_outer outer]

theorem words_word_append (isWord : IsWord inner word) (starts : StartsOuter inner rest) :
    words inner (word ++ rest) = word :: words inner rest := by
  rw [words_append (.inr starts),words_of_isWord isWord]
  rfl

theorem words_first (outer : ∀ x ∈ gap,inner x = false) (isWord : IsWord inner word)
    (starts : StartsOuter inner rest) :
    words inner (gap ++ word ++ rest) = word :: words inner rest := by
  rw [List.append_assoc,words_outer_append outer,words_word_append isWord starts]

/-- What is spelt out are the words. -/
theorem words_of_spelt {ws : List (List α)} (spelt : Spelt inner ws s) : words inner s = ws := by
  induction spelt with
  | last isWord => exact words_of_isWord isWord
  | @next word gap rest others isWord some' outer later ih =>
    rw [List.append_assoc,words_word_append isWord,words_outer_append outer,ih]
    intro x first
    rw [List.head?_append_of_ne_nil _ some'] at first
    exact outer x (List.mem_of_mem_head? first)

theorem Spelt.starts {ws : List (List α)} (spelt : Spelt inner ws s) :
    ∃ x rest,s = x :: rest ∧ inner x = true := by
  have front : ∀ {word : List α} (tail : List α),IsWord inner word →
      ∃ x rest,word ++ tail = x :: rest ∧ inner x = true := by
    intro word tail isWord
    obtain ⟨x,others,rfl⟩ := List.exists_cons_of_ne_nil isWord.nonempty
    exact ⟨x,others ++ tail,rfl,isWord.inner x List.mem_cons_self⟩
  cases spelt with
  | last isWord => simpa using front [] isWord
  | next isWord some' outer later => simpa using front _ isWord

/-- A list has no words, or a first one after outer elements, which an outer one or the end
follows. -/
theorem first_word (inner : α → Bool) (s : List α) : (∀ x ∈ s,inner x = false) ∨
    ∃ gap word rest,s = gap ++ word ++ rest ∧ (∀ x ∈ gap,inner x = false) ∧ IsWord inner word ∧
      StartsOuter inner rest := by
  have outer : ∀ x ∈ s.takeWhile fun x => !inner x,inner x = false := by
    intro x found
    simpa using List.mem_takeWhile_imp found
  cases found : s.dropWhile fun x => !inner x with
  | nil =>
    refine .inl fun x member => ?_
    simpa using List.dropWhile_eq_nil_iff.mp found x member
  | cons x others =>
    have isInner : inner x = true := by
      have first := List.head?_dropWhile_not (fun x => !inner x) s
      simpa [found] using first
    refine .inr ⟨_,(x :: others).takeWhile inner,(x :: others).dropWhile inner,?_,outer,
      ⟨?_,?_⟩,?_⟩
    · rw [List.append_assoc,List.takeWhile_append_dropWhile,← found,
        List.takeWhile_append_dropWhile]
    · simp [isInner]
    · exact fun y member => List.mem_takeWhile_imp member
    · intro y first
      have stops := List.head?_dropWhile_not inner (x :: others)
      simpa [first] using stops

theorem words_of_outer (outer : ∀ x ∈ s,inner x = false) : words inner s = [] := by
  simpa using words_outer_append outer []

theorem isWord_of_mem {w : List α} (found : w ∈ words inner s) : IsWord inner w := by
  induction length : s.length using Nat.strong_induction_on generalizing s with
  | h n ih =>
    rcases first_word inner s with none' | ⟨gap,word,rest,rfl,outer,isWord,starts⟩
    · simp [words_of_outer none'] at found
    · rw [words_first outer isWord starts] at found
      rcases List.mem_cons.mp found with rfl | later
      · exact isWord
      · have shorter : rest.length < n := by
          have positive := List.length_pos_of_ne_nil isWord.nonempty
          rw [← length]
          simp only [List.length_append]
          omega
        exact ih _ shorter later rfl

theorem words_map (inner : β → Bool) (f : α → β) (s : List α) :
    words inner (s.map f) = (words (fun x => inner (f x)) s).map (List.map f) := by
  have split : (s.map f).splitOnP (fun x => !inner x) =
      (s.splitOnP fun x => !inner (f x)).map (List.map f) := by
    induction s with
    | nil => simp
    | cons x rest ih =>
      obtain ⟨first,others,same⟩ :=
        List.exists_cons_of_ne_nil (List.splitOnP_ne_nil (fun x => !inner (f x)) rest)
      rw [List.map_cons,List.splitOnP_cons_eq_if_modifyHead,
        List.splitOnP_cons_eq_if_modifyHead,ih,same]
      split <;> simp
  rw [words,words,split,List.filter_map]
  congr 2
  funext w
  simp

theorem infix_of_word {w : List α} (found : w ∈ words inner s) : w <:+: s := by
  induction length : s.length using Nat.strong_induction_on generalizing s with
  | h n ih =>
    rcases first_word inner s with none' | ⟨gap,word,rest,rfl,outer,isWord,starts⟩
    · simp [words_of_outer none'] at found
    · rw [words_first outer isWord starts] at found
      rcases List.mem_cons.mp found with rfl | later
      · exact ⟨gap,rest,rfl⟩
      · have shorter : rest.length < n := by
          have positive := List.length_pos_of_ne_nil isWord.nonempty
          rw [← length]
          simp only [List.length_append]
          omega
        exact (ih _ shorter later rfl).trans (List.suffix_append _ _).isInfix

/-- A word does not reach over an outer element. -/
theorem infix_append_outer {x : α} (isWord : IsWord inner word) (outer : inner x = false)
    {a b : List α} (found : word <:+: a ++ x :: b) : word <:+: a ∨ word <:+: b := by
  have apart : x ∉ word := by
    intro member
    simp [isWord.inner x member] at outer
  obtain ⟨front,back,same⟩ := found
  rcases List.append_eq_append_iff.mp same with ⟨mid,rfl,_⟩ | ⟨mid,shared,tail⟩
  · exact .inl ⟨front,mid,rfl⟩
  · rcases List.append_eq_append_iff.mp shared with ⟨left,rfl,rfl⟩ | ⟨left,rfl,rfl⟩
    · cases mid with
      | nil => exact .inl ⟨front,[],by simp⟩
      | cons y others =>
        obtain ⟨rfl,_⟩ := List.cons.inj tail
        exact absurd (by simp) apart
    · cases left with
      | nil =>
        obtain ⟨y,others,rfl⟩ := List.exists_cons_of_ne_nil isWord.nonempty
        obtain ⟨rfl,_⟩ := List.cons.inj tail
        exact absurd (by simp) apart
      | cons y others =>
        obtain ⟨rfl,rfl⟩ := List.cons.inj tail
        exact .inr ⟨others,back,by simp⟩

/-- A word within a list lies within one of its words. -/
theorem infix_iff_words (isWord : IsWord inner word) :
    word <:+: s ↔ ∃ w ∈ words inner s,word <:+: w := by
  constructor
  · intro found
    induction length : s.length using Nat.strong_induction_on generalizing s with
    | h n ih =>
      by_cases all : ∀ x ∈ s,inner x = true
      · have some' : s ≠ [] := by
          rintro rfl
          exact isWord.nonempty (List.infix_nil.mp found)
        exact ⟨s,by simp [words_of_isWord ⟨some',all⟩],found⟩
      · push Not at all
        obtain ⟨x,member,outer⟩ := all
        obtain ⟨a,b,rfl⟩ := List.append_of_mem member
        rw [ne_eq,Bool.not_eq_true] at outer
        rw [words_append_outer outer]
        simp only [List.length_append,List.length_cons] at length
        rcases infix_append_outer isWord outer found with before | behind
        · obtain ⟨w,listed,within⟩ := ih a.length (by omega) before rfl
          exact ⟨w,List.mem_append_left _ listed,within⟩
        · obtain ⟨w,listed,within⟩ := ih b.length (by omega) behind rfl
          exact ⟨w,List.mem_append_right _ listed,within⟩
  · rintro ⟨w,listed,within⟩
    exact within.trans (infix_of_word listed)

/-- Words joined by an outer element are its words. -/
theorem words_intercalate {x : α} (outer : inner x = false) {ws : List (List α)}
    (each : ∀ w ∈ ws,IsWord inner w) : words inner ([x].intercalate ws) = ws := by
  induction ws with
  | nil => simp
  | cons w rest ih =>
    have first := words_of_isWord (each w List.mem_cons_self)
    have later := ih fun v listed => each v (List.mem_cons_of_mem _ listed)
    cases rest with
    | nil => simpa using first
    | cons v others =>
      rw [List.intercalate_cons_cons,List.append_assoc,List.singleton_append,
        words_append_outer outer,first,later]
      rfl

/-- Some words are the first ones exactly when they are spelt out behind outer elements. -/
theorem spelt_of_words_begin {ws : List (List α)} (vs : List (List α)) (some' : ws ≠ [])
    (begins : words inner s = ws ++ vs) : ∃ gap mid post,s = gap ++ mid ++ post ∧
      (∀ x ∈ gap,inner x = false) ∧ Spelt inner ws mid ∧ StartsOuter inner post := by
  induction ws generalizing s with
  | nil => exact absurd rfl some'
  | cons w ws ih =>
    rcases first_word inner s with none' | ⟨gap,word,rest,rfl,outer,isWord,starts⟩
    · simp [words_of_outer none'] at begins
    · rw [words_first outer isWord starts,List.cons_append,List.cons.injEq] at begins
      obtain ⟨rfl,later⟩ := begins
      cases ws with
      | nil => exact ⟨gap,word,rest,rfl,outer,.last isWord,starts⟩
      | cons w' ws' =>
        obtain ⟨gap',mid,post,rfl,outer',spelt,ends⟩ := ih (by simp) later
        have between : gap' ≠ [] := by
          rintro rfl
          obtain ⟨x,others,rfl,isInner⟩ := spelt.starts
          simp [starts x (by simp)] at isInner
        exact ⟨gap,word ++ gap' ++ mid,post,by simp,outer,.next isWord between outer' spelt,ends⟩

/-- Where the words of a list that are neighbours stand in it. -/
theorem words_infix_iff {ws : List (List α)} (some' : ws ≠ []) :
    ws <:+: words inner s ↔ ∃ pre mid post,s = pre ++ mid ++ post ∧ Spelt inner ws mid ∧
      EndsOuter inner pre ∧ StartsOuter inner post := by
  constructor
  · rintro ⟨us,vs,same⟩
    induction us generalizing s with
    | nil =>
      obtain ⟨gap,mid,post,rfl,outer,spelt,starts⟩ :=
        spelt_of_words_begin vs some' (by simpa using same.symm)
      exact ⟨gap,mid,post,rfl,spelt,fun x last => outer x (List.mem_of_getLast? last),starts⟩
    | cons u us ih =>
      rcases first_word inner s with none' | ⟨gap,word,rest,rfl,outer,isWord,starts⟩
      · simp [words_of_outer none'] at same
      · rw [words_first outer isWord starts] at same
        simp only [List.cons_append,List.cons.injEq] at same
        obtain ⟨pre,mid,post,rfl,spelt,ends,last⟩ := ih (by simpa using same.2)
        refine ⟨gap ++ word ++ pre,mid,post,by simp,spelt,?_,last⟩
        intro x final
        rcases List.eq_nil_or_concat' pre with rfl | ⟨front,y,rfl⟩
        · obtain ⟨y,others,rfl,isInner⟩ := spelt.starts
          simp [starts y (by simp)] at isInner
        · apply ends x
          simpa using final
  · rintro ⟨pre,mid,post,rfl,spelt,ends,starts⟩
    rw [words_append (.inr starts),words_append (.inl ends),words_of_spelt spelt]
    exact ⟨words inner pre,words inner post,rfl⟩

end LocalBook
