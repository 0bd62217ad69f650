import Mathlib

/-! # Attempts that are repeated

An attempt changes the state whether it fails or not. It is repeated while its failure may pass and retries are
left. What a place holds afterwards is what the last attempt that wrote there left in it.
-/
namespace StructureAi.Foundation
variable {σ ε α : Type*}

/-- Attempts from an index on, with so many retries left. -/
def retrying (mayPass : ε → Bool) (attempt : ℕ → σ → Except ε α × σ) : ℕ → ℕ → σ → Except ε α × σ
  | 0,index,s => attempt index s
  | retries + 1,index,s =>
    match attempt index s with
    | (.error e,s') => if mayPass e then retrying mayPass attempt retries (index + 1) s' else (.error e,s')
    | (.ok a,s') => (.ok a,s')

/-- The state after so many attempts, whatever came of them. -/
def afterAttempts (attempt : ℕ → σ → Except ε α × σ) : ℕ → σ → σ
  | 0,s => s
  | n + 1,s => (attempt n (afterAttempts attempt n s)).2

section Retries
variable {mayPass : ε → Bool} {attempt : ℕ → σ → Except ε α × σ} {s : σ} {e : ε}

theorem retrying_failed (hpass : ∀ index s e, (attempt index s).1 = .error e → mayPass e = true) (retries index : ℕ)
    (h : (retrying mayPass attempt retries index (afterAttempts attempt index s)).1 = .error e) :
    (retrying mayPass attempt retries index (afterAttempts attempt index s)).2 =
      afterAttempts attempt (index + retries + 1) s := by
  induction retries generalizing index with
  | zero => rfl
  | succ retries ih =>
    rw [retrying] at h ⊢
    have hnext : (attempt index (afterAttempts attempt index s)).2 = afterAttempts attempt (index + 1) s := rfl
    cases hattempt : attempt index (afterAttempts attempt index s) with
    | mk result s' =>
      rw [hattempt] at h hnext
      obtain rfl : s' = afterAttempts attempt (index + 1) s := hnext
      cases result with
      | ok a => cases h
      | error e' =>
        have hmay := hpass _ _ e' (congrArg Prod.fst hattempt)
        simp only [hmay,if_true] at h ⊢
        rw [ih (index + 1) h,show index + 1 + retries + 1 = index + (retries + 1) + 1 by omega]

end Retries

def lastWrite (writes : ℕ → Option α) : ℕ → Option α
  | 0 => none
  | n + 1 => (writes n).or (lastWrite writes n)

section Writes
variable {writes : ℕ → Option α} {n : ℕ} {a : α}

theorem lastWrite_none (h : ∀ i < n, writes i = none) : lastWrite writes n = none := by
  induction n with
  | zero => rfl
  | succ n ih =>
    rw [lastWrite,h n (Nat.lt_succ_self n),ih fun i hi => h i (Nat.lt_succ_of_lt hi)]
    rfl

theorem lastWrite_some (h : lastWrite writes n = some a) : ∃ i < n, writes i = some a ∧ ∀ j < n, i < j → writes j = none := by
  induction n with
  | zero => cases h
  | succ n ih =>
    rw [lastWrite] at h
    cases hn : writes n with
    | some b =>
      rw [hn,Option.some_or] at h
      exact ⟨n,Nat.lt_succ_self n,by rw [hn,h],fun j hj hlater => by omega⟩
    | none =>
      rw [hn,Option.none_or] at h
      obtain ⟨i,hi,hwrite,hlater⟩ := ih h
      refine ⟨i,Nat.lt_succ_of_lt hi,hwrite,?_⟩
      intro j hj hij
      rcases Nat.lt_succ_iff_lt_or_eq.mp hj with hj | rfl
      · exact hlater j hj hij
      · exact hn

theorem lastWrite_of_last {i : ℕ} (hi : i < n) (h : writes i = some a) (hlater : ∀ j < n, i < j → writes j = none) :
    lastWrite writes n = some a := by
  induction n with
  | zero => exact absurd hi (Nat.not_lt_zero i)
  | succ n ih =>
    rw [lastWrite]
    rcases Nat.lt_succ_iff_lt_or_eq.mp hi with hin | rfl
    · rw [hlater n (Nat.lt_succ_self n) hin,Option.none_or]
      exact ih hin fun j hj hij => hlater j (Nat.lt_succ_of_lt hj) hij
    · rw [h,Option.some_or]

theorem lastWrite_eq_none : lastWrite writes n = none ↔ ∀ i < n, writes i = none := by
  constructor
  · intro h i hi
    by_contra hne
    obtain ⟨a,ha⟩ := Option.ne_none_iff_exists'.mp hne
    have hwritten : ∃ b, lastWrite writes n = some b := by
      clear h
      induction n with
      | zero => exact absurd hi (Nat.not_lt_zero i)
      | succ n ih =>
        rw [lastWrite]
        cases hn : writes n with
        | some b => exact ⟨b,rfl⟩
        | none =>
          rw [Option.none_or]
          rcases Nat.lt_succ_iff_lt_or_eq.mp hi with hin | rfl
          · exact ih hin
          · rw [ha] at hn
            cases hn
    obtain ⟨b,hb⟩ := hwritten
    rw [h] at hb
    cases hb
  · exact lastWrite_none

end Writes
end StructureAi.Foundation
