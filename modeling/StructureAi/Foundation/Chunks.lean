import Mathlib

/-! # Items cut off a buffer

A stream comes in chunks. After each chunk as many items as the buffer begins with are cut off it.
Where what is cut off does not depend on what follows, the items do not depend on the chunks.
-/
namespace StructureAi.Foundation
variable {α β γ σ : Type*}

/-- What a buffer begins with, and the rest of it. -/
structure Cutter (α β : Type*) where
  cut : List α → Option (β × List α)
  shorter : ∀ {buffer item rest}, cut buffer = some (item,rest) → rest.length < buffer.length

namespace Cutter
variable (c : Cutter α β) {buffer more rest : List α} {item : β}

/-- The items that are cut off in so many rounds, and what is left. -/
def drainFor : ℕ → List α → List β × List α
  | 0,buffer => ([],buffer)
  | rounds + 1,buffer =>
    match c.cut buffer with
    | none => ([],buffer)
    | some (item,rest) => (item :: (drainFor rounds rest).1,(drainFor rounds rest).2)

def drain (buffer : List α) : List β × List α := c.drainFor buffer.length buffer

/-- Every chunk goes to the end of the buffer, which is drained. -/
def receive (chunks : List (List α)) : List β × List α :=
  chunks.foldl (fun state chunk => (state.1 ++ (c.drain (state.2 ++ chunk)).1,(c.drain (state.2 ++ chunk)).2)) ([],[])

/-- A chunk arrives: the items that it completes are handled in turn. -/
def process (handle : σ → β → σ) (state : List α × σ) (chunk : List α) : List α × σ :=
  ((c.drain (state.1 ++ chunk)).2,(c.drain (state.1 ++ chunk)).1.foldl handle state.2)

/-- What is cut off does not depend on what follows. -/
def Stable : Prop := ∀ {buffer item rest}, c.cut buffer = some (item,rest) → ∀ more, c.cut (buffer ++ more) =
    some (item,rest ++ more)

variable {c}

theorem cut_nil : c.cut [] = none := by
  cases h : c.cut [] with
  | none => rfl
  | some cutting => exact absurd (c.shorter h) (Nat.not_lt_zero _)

theorem drainFor_enough {rounds : ℕ} (h : buffer.length ≤ rounds) : c.drainFor rounds buffer = c.drain buffer := by
  have key : ∀ (n : ℕ) (buffer : List α) (rounds : ℕ), buffer.length ≤ n → n ≤ rounds →
      c.drainFor rounds buffer = c.drainFor n buffer := by
    intro n
    induction n with
    | zero =>
      intro buffer rounds hlength _
      obtain rfl := List.length_eq_zero_iff.mp (Nat.le_zero.mp hlength)
      cases rounds with
      | zero => rfl
      | succ rounds =>
        rw [drainFor,drainFor]
        simp only [cut_nil]
    | succ n ih =>
      intro buffer rounds hlength hle
      obtain ⟨rounds,rfl⟩ := Nat.exists_eq_add_of_le' (Nat.one_le_of_lt (Nat.lt_of_succ_le hle))
      rw [drainFor,drainFor]
      cases hcut : c.cut buffer with
      | none => rfl
      | some cutting =>
        obtain ⟨item,rest⟩ := cutting
        have hshorter := c.shorter hcut
        dsimp only
        rw [ih rest rounds (by omega) (by omega)]
  exact key buffer.length buffer rounds le_rfl h

theorem drain_none (h : c.cut buffer = none) : c.drain buffer = ([],buffer) := by
  rw [← drainFor_enough (Nat.le_succ _),drainFor,h]

theorem drain_some (h : c.cut buffer = some (item,rest)) : c.drain buffer = (item :: (c.drain rest).1,(c.drain rest).2) := by
  rw [← drainFor_enough (Nat.le_succ _),drainFor,h]
  dsimp only
  rw [drainFor_enough (c.shorter h).le]

theorem Stable.drain_append (h : c.Stable) (buffer more : List α) : c.drain (buffer ++ more) =
    ((c.drain buffer).1 ++ (c.drain ((c.drain buffer).2 ++ more)).1,(c.drain ((c.drain buffer).2 ++ more)).2) := by
  induction hn : buffer.length using Nat.strong_induction_on generalizing buffer with
  | _ n ih =>
    cases hcut : c.cut buffer with
    | none =>
      rw [drain_none hcut,List.nil_append]
    | some cutting =>
      obtain ⟨item,rest⟩ := cutting
      have hshorter := c.shorter hcut
      rw [drain_some hcut,drain_some (h hcut more),ih rest.length (by omega) rest rfl,List.cons_append]

/-- However a stream is cut into chunks, what is received is what the whole stream drains to. -/
theorem Stable.receive_eq (h : c.Stable) (chunks : List (List α)) : c.receive chunks = c.drain chunks.flatten := by
  have key : ∀ (chunks : List (List α)) (buffer : List α), chunks.foldl
      (fun state chunk => (state.1 ++ (c.drain (state.2 ++ chunk)).1,(c.drain (state.2 ++ chunk)).2)) (c.drain buffer) =
        c.drain (buffer ++ chunks.flatten) := by
    intro chunks
    induction chunks with
    | nil =>
      intro buffer
      rw [List.flatten_nil,List.append_nil]
      rfl
    | cons chunk chunks ih =>
      intro buffer
      rw [List.foldl_cons,List.flatten_cons,← List.append_assoc,← ih (buffer ++ chunk),← h.drain_append buffer chunk]
  have hstart := key chunks []
  rwa [List.nil_append] at hstart

theorem foldl_process (handle : σ → β → σ) (s : σ) (chunks : List (List α)) :
    chunks.foldl (c.process handle) ([],s) = ((c.receive chunks).2,(c.receive chunks).1.foldl handle s) := by
  unfold receive
  induction chunks using List.reverseRecOn with
  | nil => rfl
  | append_singleton chunks chunk ih =>
    rw [List.foldl_append,List.foldl_append,ih]
    simp only [List.foldl_cons,List.foldl_nil,process,List.foldl_append]

theorem drain_encoded {encode : γ → List α} {decoded : γ → β} {xs : List γ}
    (h : ∀ x ∈ xs, ∀ rest, c.cut (encode x ++ rest) = some (decoded x,rest)) : c.drain (xs.flatMap encode) =
      (xs.map decoded,[]) := by
  induction xs with
  | nil => rfl
  | cons x xs ih =>
    rw [List.flatMap_cons,drain_some (h x List.mem_cons_self _),ih fun y hy => h y (List.mem_cons_of_mem x hy)]
    rfl

end Cutter
end StructureAi.Foundation
