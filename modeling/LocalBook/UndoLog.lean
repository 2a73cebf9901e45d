import Mathlib

/-! Undo logs over a store. An image keeps what was found at a few keys before they
were changed; writing the images of a log back restores the store, in any order. -/
namespace LocalBook.UndoLog

variable {κ β : Type}

structure Image (κ β : Type) where
  keys : List κ
  value : κ → β

namespace Image

def Holds (image : Image κ β) (s : κ → β) : Prop := ∀ k ∈ image.keys, s k = image.value k

def Apart (image other : Image κ β) : Prop := ∀ k ∈ image.keys, k ∉ other.keys

def Touches (image : Image κ β) (s t : κ → β) : Prop := ∀ k, k ∉ image.keys → t k = s k

def Restored (image : Image κ β) (s t : κ → β) : Prop := image.Holds t ∧ image.Touches s t

theorem Apart.symm {image other : Image κ β} (apart : image.Apart other) : other.Apart image :=
  fun k found also => apart k also found

theorem Apart.holds {image other : Image κ β} {s t : κ → β} (apart : image.Apart other)
    (touches : image.Touches s t) : other.Holds t ↔ other.Holds s := by
  refine forall_congr' fun k => imp_congr_right fun found => ?_
  rw [touches k (apart.symm k found)]

end Image

inductive Replays : List (Image κ β) → (κ → β) → (κ → β) → Prop where
  | nil (s : κ → β) : Replays [] s s
  | cons {image : Image κ β} {log : List (Image κ β)} {s t u : κ → β}
    (first : image.Restored s t) (rest : Replays log t u) : Replays (image :: log) s u

namespace Replays

variable {log : List (Image κ β)} {s t origin : κ → β}

/-- A key of no image keeps its value. -/
theorem other (replays : Replays log s t) {k : κ} (free : ∀ image ∈ log, k ∉ image.keys) :
    t k = s k := by
  induction replays with
  | nil s => rfl
  | cons first rest ih =>
    rw [ih fun image found => free image (List.mem_cons_of_mem _ found)]
    exact first.2 k (free _ List.mem_cons_self)

/-- Images with keys of their own all hold at the end. -/
theorem holds (replays : Replays log s t) (apart : log.Pairwise Image.Apart) :
    ∀ image ∈ log, image.Holds t := by
  induction replays with
  | nil s => simp
  | cons first rest ih =>
    obtain ⟨here,later⟩ := List.pairwise_cons.mp apart
    intro image found
    rcases List.mem_cons.mp found with rfl | found
    · intro k key
      rw [rest.other fun other member => here other member k key]
      exact first.1 k key
    · exact ih later image found

/-- Images taken from one store lead back to it from any store that differs from it only
at their keys. -/
theorem eq_origin (replays : Replays log s t) (taken : ∀ image ∈ log, image.Holds origin)
    (elsewhere : ∀ k, (∀ image ∈ log, k ∉ image.keys) → s k = origin k) : t = origin := by
  induction replays with
  | nil s => exact funext fun k => elsewhere k (by simp)
  | @cons image log s t u first rest ih =>
    refine ih (fun other found => taken other (List.mem_cons_of_mem _ found)) fun k free => ?_
    by_cases here : k ∈ image.keys
    · rw [first.1 k here,taken image List.mem_cons_self k here]
    · rw [first.2 k here]
      refine elsewhere k fun other found => ?_
      rcases List.mem_cons.mp found with rfl | later
      · exact here
      · exact free other later

end Replays

end LocalBook.UndoLog
