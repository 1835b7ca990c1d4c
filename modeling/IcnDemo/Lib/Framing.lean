import Mathlib.Tactic

/-!
# Frames in a stream

A framing says where the first frame of a stream ends.  Whether there is a first frame depends only
on its own symbols, so that a receiver may cut the stream anywhere: a frame that is found stays when
more arrives, and a frame that is found later was not complete before (`Framing.parse_of_append`).

`Framing.IsMaximal` describes the frames at the start of a stream up to the first place without a
frame of bounded length.
-/

/-- A reader of the first frame of a stream, and the symbols of a frame. -/
structure Framing (α β : Type*) where
  parse : List α → Option β
  wire : β → List α
  wire_ne_nil : ∀ {s b}, parse s = some b → wire b ≠ []
  wire_isPrefix : ∀ {s b}, parse s = some b → wire b <+: s
  parse_wire_append : ∀ {s b}, parse s = some b → ∀ rest, parse (wire b ++ rest) = some b

namespace Framing

variable {α β : Type*} (F : Framing α β) {s t : List α} {b : β} {bs cs : List β} {limit : ℕ}

/-- An element is read without what follows. -/
theorem parse_of_append (h : F.parse (s ++ t) = some b) (hlength : (F.wire b).length ≤ s.length) :
    F.parse s = some b := by
  have hs : F.wire b <+: s :=
    List.prefix_of_prefix_length_le (F.wire_isPrefix h) (List.prefix_append s t) hlength
  obtain ⟨rest, rfl⟩ := hs
  exact F.parse_wire_append h rest

/-- An element is read from its wire. -/
theorem parse_wire (h : F.parse s = some b) : F.parse (F.wire b) = some b := by
  simpa using F.parse_wire_append h []

/-- Nothing is read from nothing. -/
theorem parse_nil : F.parse [] = none := by
  rcases h : F.parse [] with _ | b
  · rfl
  · exact absurd (List.prefix_nil.mp (F.wire_isPrefix h)) (F.wire_ne_nil h)

/-- These are frames of at most `limit` symbols. -/
def Frames (limit : ℕ) (bs : List β) : Prop :=
  ∀ b ∈ bs, F.parse (F.wire b) = some b ∧ (F.wire b).length ≤ limit

/-- The stream starts with these frames, and what follows them does not start with a frame of at
most `limit` symbols. -/
def IsMaximal (limit : ℕ) (s : List α) (bs : List β) : Prop :=
  F.Frames limit bs ∧ ∃ rest, s = bs.flatMap F.wire ++ rest ∧
    ∀ b, F.parse rest = some b → limit < (F.wire b).length

variable {F}

/-- Frames behind frames. -/
theorem Frames.append (hb : F.Frames limit bs) (hc : F.Frames limit cs) :
    F.Frames limit (bs ++ cs) := by
  intro b h
  rcases List.mem_append.mp h with h | h
  · exact hb b h
  · exact hc b h

/-- Frames take up the whole stream. -/
theorem Frames.isMaximal (h : F.Frames limit bs) : F.IsMaximal limit (bs.flatMap F.wire) bs := by
  refine ⟨h, [], (List.append_nil _).symm, ?_⟩
  intro b hb
  rw [F.parse_nil] at hb
  cases hb

/-- The frames are followed by symbols without a frame, and nothing more arrives that would change
this. -/
theorem Frames.isMaximal_append (h : F.Frames limit bs) (hs : F.parse s = none)
    (ht : t = [] ∨ limit ≤ s.length) : F.IsMaximal limit (bs.flatMap F.wire ++ s ++ t) bs := by
  refine ⟨h, s ++ t, List.append_assoc _ _ _, ?_⟩
  grind [F.parse_of_append]

/-- A stream is cut in one way. -/
theorem IsMaximal.unique (hb : F.IsMaximal limit s bs) (hc : F.IsMaximal limit s cs) : bs = cs := by
  -- where one sequence goes on, the other one does too
  have hgoes : ∀ {s : List α} {b : β} {bs : List β}, F.IsMaximal limit s (b :: bs) →
      F.parse s = some b ∧ (F.wire b).length ≤ limit ∧
        ∃ rest, s = F.wire b ++ rest ∧ F.IsMaximal limit rest bs := by
    rintro s b bs ⟨hframes, rest, rfl, hrest⟩
    obtain ⟨hparse, hlength⟩ := hframes b (List.mem_cons_self ..)
    rw [List.flatMap_cons, List.append_assoc]
    exact ⟨F.parse_wire_append hparse _, hlength, _, rfl,
      fun b' hb' => hframes b' (List.mem_cons_of_mem _ hb'), rest, rfl, hrest⟩
  have hstops : ∀ {s : List α} {b : β}, F.IsMaximal limit s [] → F.parse s = some b →
      limit < (F.wire b).length := by
    rintro s b ⟨-, rest, rfl, hrest⟩ h
    exact hrest b h
  induction bs generalizing s cs with
  | nil =>
    rcases cs with _ | ⟨c, cs⟩ <;> grind
  | cons b bs ih =>
    obtain ⟨hparse, hlength, rest, rfl, hrest⟩ := hgoes hb
    rcases cs with _ | ⟨c, cs⟩ <;> grind [List.append_cancel_left]

end Framing
