import Mathlib

/-! Spans of a list. They tile a stretch of it when they stand one behind the other and leave out
only elements that do not count. -/
namespace LocalBook

structure Span where
  start : Nat
  stop : Nat
deriving DecidableEq

namespace Span

variable {α : Type} {skips : α → Prop} {text : List α}

def Holds (span : Span) (i : Nat) : Prop := span.start ≤ i ∧ i < span.stop

instance (span : Span) (i : Nat) : Decidable (span.Holds i) := inferInstanceAs (Decidable (_ ∧ _))

def Gap (skips : α → Prop) (text : List α) (a b : Nat) : Prop :=
  ∀ i,a ≤ i → i < b → ∀ c,text[i]? = some c → skips c

theorem Gap.refl (a : Nat) : Gap skips text a a := fun _ low high => by omega

theorem Gap.trans {a b c : Nat} (first : Gap skips text a b) (second : Gap skips text b c) :
    Gap skips text a c := by
  intro i low high d found
  rcases Nat.lt_or_ge i b with left | right
  · exact first i low left d found
  · exact second i right high d found

def Tiles (skips : α → Prop) (text : List α) : Nat → List Span → Nat → Prop
  | a,[],b => a ≤ b ∧ Gap skips text a b
  | a,span :: rest,b =>
    a ≤ span.start ∧ Gap skips text a span.start ∧ span.start ≤ span.stop ∧
      Tiles skips text span.stop rest b

def hull (spans : List Span) : Span where
  start := (spans.head?.map start).getD 0
  stop := (spans.getLast?.map stop).getD 0

variable {a b c : Nat} {spans others : List Span} {span : Span}

theorem Tiles.le (tiles : Tiles skips text a spans b) : a ≤ b := by
  induction spans generalizing a with
  | nil => exact tiles.1
  | cons span rest ih =>
    obtain ⟨before,_,within,later⟩ := tiles
    exact before.trans (within.trans (ih later))

theorem Tiles.before (le : a ≤ b) (gap : Gap skips text a b) (tiles : Tiles skips text b spans c) :
    Tiles skips text a spans c := by
  cases spans with
  | nil => exact ⟨le.trans tiles.1,gap.trans tiles.2⟩
  | cons span rest =>
    obtain ⟨before,outside,within,later⟩ := tiles
    exact ⟨le.trans before,gap.trans outside,within,later⟩

theorem Tiles.append (first : Tiles skips text a spans b) (second : Tiles skips text b others c) :
    Tiles skips text a (spans ++ others) c := by
  induction spans generalizing a with
  | nil => exact second.before first.1 first.2
  | cons span rest ih =>
    obtain ⟨before,outside,within,later⟩ := first
    exact ⟨before,outside,within,ih later⟩

theorem Tiles.split (tiles : Tiles skips text a (spans ++ others) c) :
    ∃ b,Tiles skips text a spans b ∧ Tiles skips text b others c := by
  induction spans generalizing a with
  | nil => exact ⟨a,⟨le_rfl,Gap.refl a⟩,tiles⟩
  | cons span rest ih =>
    obtain ⟨before,outside,within,later⟩ := tiles
    obtain ⟨b,left,right⟩ := ih later
    exact ⟨b,⟨before,outside,within,left⟩,right⟩

/-- Some spans tile their hull. -/
theorem Tiles.inner (tiles : Tiles skips text a spans b) (some' : spans ≠ []) :
    a ≤ (hull spans).start ∧ Gap skips text a (hull spans).start ∧
      Tiles skips text (hull spans).start spans (hull spans).stop ∧
      (hull spans).stop ≤ b ∧ Gap skips text (hull spans).stop b := by
  induction spans generalizing a with
  | nil => exact absurd rfl some'
  | cons span rest ih =>
    obtain ⟨before,outside,within,later⟩ := tiles
    cases rest with
    | nil => exact ⟨before,outside,⟨le_rfl,Gap.refl _,within,le_rfl,Gap.refl _⟩,later⟩
    | cons next rest =>
      obtain ⟨low,gap,inside,high,behind⟩ := ih later (by simp)
      have stop : (hull (span :: next :: rest)).stop = (hull (next :: rest)).stop := by
        simp [hull,List.getLast?_cons_cons]
      refine ⟨before,outside,?_,stop ▸ high,stop ▸ behind⟩
      rw [stop]
      exact ⟨le_rfl,Gap.refl _,within,inside.before low gap⟩

theorem Tiles.narrow (tiles : Tiles skips text a spans b) (some' : spans ≠ []) :
    Tiles skips text a [hull spans] b := by
  obtain ⟨low,outside,inside,high,behind⟩ := tiles.inner some'
  exact ⟨low,outside,inside.le,high,behind⟩

/-- The hulls of the groups tile what the spans tile. -/
theorem Tiles.hulls {groups : List (List Span)} (tiles : Tiles skips text a groups.flatten b)
    (some' : ∀ group ∈ groups,group ≠ []) : Tiles skips text a (groups.map hull) b := by
  induction groups generalizing a with
  | nil => exact tiles
  | cons group rest ih =>
    rw [List.flatten_cons] at tiles
    obtain ⟨c,first,later⟩ := tiles.split
    have narrow := first.narrow (some' group (by simp))
    exact narrow.append (ih later fun g member => some' g (List.mem_cons_of_mem _ member))

/-- A span in which nothing counts can be left out. -/
theorem Tiles.filter {keeps : Span → Bool} (tiles : Tiles skips text a spans b)
    (dropped : ∀ span ∈ spans,keeps span = false → Gap skips text span.start span.stop) :
    Tiles skips text a (spans.filter keeps) b := by
  induction spans generalizing a with
  | nil => exact tiles
  | cons span rest ih =>
    obtain ⟨before,outside,within,later⟩ := tiles
    have rest' := ih later fun s member => dropped s (List.mem_cons_of_mem _ member)
    cases kept : keeps span with
    | true =>
      rw [List.filter_cons_of_pos (by simp [kept])]
      exact ⟨before,outside,within,rest'⟩
    | false =>
      rw [List.filter_cons_of_neg (by simp [kept])]
      exact rest'.before (before.trans within)
        (outside.trans (dropped span (by simp) kept))

theorem Tiles.bounds (tiles : Tiles skips text a spans b) (member : span ∈ spans) :
    a ≤ span.start ∧ span.start ≤ span.stop ∧ span.stop ≤ b := by
  induction spans generalizing a with
  | nil => cases member
  | cons first rest ih =>
    obtain ⟨before,_,within,later⟩ := tiles
    rcases List.mem_cons.mp member with rfl | there
    · exact ⟨before,within,later.le⟩
    · obtain ⟨low,inner,high⟩ := ih later there
      exact ⟨before.trans (within.trans low),inner,high⟩

theorem Tiles.ordered (tiles : Tiles skips text a spans b) :
    spans.Pairwise fun s t => s.stop ≤ t.start := by
  induction spans generalizing a with
  | nil => exact List.Pairwise.nil
  | cons first rest ih =>
    obtain ⟨_,_,_,later⟩ := tiles
    exact List.pairwise_cons.mpr ⟨fun s member => (later.bounds member).1,ih later⟩

theorem Tiles.behind (tiles : Tiles skips text a spans b) {i : Nat} (low : i < a) :
    spans.filter (fun s => s.Holds i) = [] := by
  rw [List.filter_eq_nil_iff]
  intro s member holds
  have above := (tiles.bounds member).1
  have inside : s.Holds i := by simpa using holds
  have := inside.1
  omega

/-- An element that counts lies in one span. -/
theorem Tiles.once (tiles : Tiles skips text a spans b) {i : Nat} {d : α} (low : a ≤ i)
    (high : i < b) (found : text[i]? = some d) (counts : ¬skips d) :
    ∃ s,spans.filter (fun s => s.Holds i) = [s] := by
  induction spans generalizing a with
  | nil => exact absurd (tiles.2 i low high d found) counts
  | cons first rest ih =>
    obtain ⟨_,outside,_,later⟩ := tiles
    have above : first.start ≤ i := by
      by_contra below
      exact counts (outside i low (by omega) d found)
    rcases Nat.lt_or_ge i first.stop with inside | behind
    · refine ⟨first,?_⟩
      rw [List.filter_cons_of_pos (by simpa using ⟨above,inside⟩),later.behind inside]
    · obtain ⟨s,only⟩ := ih later behind
      refine ⟨s,?_⟩
      rw [List.filter_cons_of_neg,only]
      intro holds
      exact absurd (of_decide_eq_true holds).2 (by omega)

end Span

end LocalBook
