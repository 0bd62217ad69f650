import StructureAi.Foundation.Json

/-! # Reading back written JSON

The induction is on the value, with the remaining text as a parameter. A number
has no closing delimiter, so every continuation is a `NumberEnd`, which the
separators and closing brackets are. The written text itself is fuel enough.
-/
namespace StructureAi.Foundation.Json

theorem hexValue_digitChar : ∀ d < 16, hexValue (Nat.digitChar d) = some d := by decide

theorem hexUnit_hexDigits {n : ℕ} (h : n < 65536) :
    hexUnit (Nat.digitChar (n / 4096 % 16)) (Nat.digitChar (n / 256 % 16))
      (Nat.digitChar (n / 16 % 16)) (Nat.digitChar (n % 16)) = some n := by
  have hd : ∀ k, hexValue (Nat.digitChar (k % 16)) = some (k % 16) :=
    fun k => hexValue_digitChar _ (Nat.mod_lt k (by decide))
  simp only [hexUnit,hd,Option.bind_eq_bind,Option.bind_some,Option.pure_def,Option.some.injEq]
  omega

theorem escapeChar_ne_nil (c : Char) : escapeChar c ≠ [] := by
  unfold escapeChar
  repeat' split
  all_goals simp

theorem readChars_escapeChar (fuel : ℕ) (c : Char) (rest : List Char) :
    readChars (fuel + 1) (escapeChar c ++ rest) =
      (readChars fuel rest).map fun p => (c :: p.1,p.2) := by
  unfold escapeChar
  split
  next h => subst h; rfl
  split
  next h => subst h; rfl
  split
  next h => subst h; rfl
  split
  next h => subst h; rfl
  split
  next h => subst h; rfl
  split
  next h => subst h; rfl
  split
  next h => subst h; rfl
  split
  next h =>
    have hu := hexUnit_hexDigits (show c.toNat < 65536 by omega)
    have hh : isHigh c.toNat = false := by simp only [isHigh,Bool.and_eq_false_iff]; left; simp; omega
    have hl : isLow c.toNat = false := by simp only [isLow,Bool.and_eq_false_iff]; left; simp; omega
    simp only [hexDigits,List.cons_append,List.nil_append,readChars,hu,Option.bind_some,hh,unitChar,hl,
      Bool.or_self,Bool.false_eq_true,if_false,Char.ofNat_toNat]
  next h1 h2 _ _ _ _ _ h =>
    simp only [List.cons_append,List.nil_append]
    rw [readChars.eq_def]
    simp only
    split
    next heq => exact absurd (List.cons.inj heq).1 h1
    next heq => exact absurd (List.cons.inj heq).1 h2
    next heq => exact absurd (List.cons.inj heq).1 h2
    next heq =>
      obtain ⟨rfl,rfl⟩ := List.cons.inj heq
      rw [if_neg h]
    next heq => cases heq

theorem readChars_escaped (cs : List Char) {fuel : ℕ} (hf : cs.length < fuel) (rest : List Char) :
    readChars fuel (cs.flatMap escapeChar ++ '"' :: rest) = some (cs,rest) := by
  induction cs generalizing fuel with
  | nil =>
    obtain ⟨fuel,rfl⟩ : ∃ k, fuel = k + 1 := ⟨fuel - 1,by simp at hf; omega⟩
    rfl
  | cons c cs ih =>
    obtain ⟨fuel,rfl⟩ : ∃ k, fuel = k + 1 := ⟨fuel - 1,by simp at hf; omega⟩
    have hf' : cs.length < fuel := by simpa using hf
    rw [List.flatMap_cons,List.append_assoc,readChars_escapeChar,ih hf']
    rfl

theorem length_le_escaped (cs : List Char) : cs.length ≤ (cs.flatMap escapeChar).length := by
  induction cs with
  | nil => simp
  | cons c cs ih =>
    have hc := List.length_pos_of_ne_nil (escapeChar_ne_nil c)
    rw [List.flatMap_cons,List.length_append,List.length_cons]
    omega

@[simp] theorem readString_quote (s : String) (rest : List Char) :
    readString (quote s ++ rest) = some (s,rest) := by
  have hl := length_le_escaped s.toList
  have hr : (s.toList.flatMap escapeChar ++ ['"']) ++ rest =
      s.toList.flatMap escapeChar ++ '"' :: rest := by simp
  have hf : s.toList.length < (s.toList.flatMap escapeChar ++ '"' :: rest).length + 1 := by
    rw [List.length_append]
    omega
  simp only [quote,List.cons_append,hr,readString,readChars_escaped s.toList hf rest,Option.map_some,
    String.ofList_toList]

theorem skipSpace_cons {c : Char} (h : isSpace c = false) (r : List Char) : skipSpace (c :: r) = c :: r := by
  simp [skipSpace,h]

/-- A written value starts with a character that is neither space nor a closing bracket. -/
theorem write_head (v : Json) : ∃ c r, v.write = c :: r ∧ isSpace c = false ∧ c ≠ ']' := by
  cases v with
  | null => exact ⟨_,_,by rw [write],by decide,by decide⟩
  | bool b => cases b <;> exact ⟨_,_,by simp only [write]; rfl,by decide,by decide⟩
  | str s => exact ⟨_,_,by rw [write,quote],by decide,by decide⟩
  | arr vs => cases vs <;> exact ⟨_,_,by rw [write],by decide,by decide⟩
  | obj ms =>
    cases ms with
    | nil => exact ⟨_,_,by rw [write],by decide,by decide⟩
    | cons m ms => exact ⟨_,_,by rw [write],by decide,by decide⟩
  | num d =>
    obtain ⟨c,r,hc,hd⟩ := d.text_head
    refine ⟨c,r,by rw [write,hc],?_,?_⟩
    · rcases hd with rfl | hd
      · decide
      · by_contra hs
        simp only [isSpace,Bool.not_eq_false,Bool.or_eq_true,decide_eq_true_eq] at hs
        rcases hs with ((rfl | rfl) | rfl) | rfl <;> exact absurd hd (by decide)
    · rintro rfl
      rcases hd with h | h <;> exact absurd h (by decide)

theorem skipSpace_write (v : Json) (rest : List Char) : skipSpace (v.write ++ rest) = v.write ++ rest := by
  obtain ⟨c,r,hc,hs,-⟩ := write_head v
  rw [hc,List.cons_append,skipSpace_cons hs]

theorem numberEnd_cons {c : Char} (h : c = ',' ∨ c = ']' ∨ c = '}') (r : List Char) : NumberEnd (c :: r) := by
  intro c' hc
  simp only [List.head?_cons,Option.mem_def,Option.some.injEq] at hc
  subst hc
  rcases h with rfl | rfl | rfl <;> decide

theorem numberEnd_writeItems (vs : List Json) (rest : List Char) : NumberEnd (writeItems vs ++ rest) := by
  cases vs with
  | nil => exact numberEnd_cons (Or.inr (Or.inl rfl)) rest
  | cons v vs => rw [writeItems]; exact numberEnd_cons (Or.inl rfl) _

theorem numberEnd_writeMembers (ms : List (String × Json)) (rest : List Char) :
    NumberEnd (writeMembers ms ++ rest) := by
  cases ms with
  | nil => exact numberEnd_cons (Or.inr (Or.inr rfl)) rest
  | cons m ms => rw [writeMembers]; exact numberEnd_cons (Or.inl rfl) _

theorem readValue_number (d : Decimal) (fuel : ℕ) {rest : List Char} (hr : NumberEnd rest) :
    readValue (fuel + 1) (d.text ++ rest) = some (num d,rest) := by
  have hread := readDecimal_text d hr
  have hskip := skipSpace_write (num d) rest
  obtain ⟨c,r,hc,hd⟩ := d.text_head
  have hne : ∀ x : Char, (x = '-' ∨ x.isDigit = true) = False → c ≠ x := by
    rintro x hx rfl
    exact hx.mp hd
  rw [write] at hskip
  rw [hc,List.cons_append] at hread hskip ⊢
  rw [readValue.eq_def]
  simp only [hskip]
  split
  next heq => exact absurd (List.cons.inj heq).1 (hne 'n' (by decide))
  next heq => exact absurd (List.cons.inj heq).1 (hne 't' (by decide))
  next heq => exact absurd (List.cons.inj heq).1 (hne 'f' (by decide))
  next heq => exact absurd (List.cons.inj heq).1 (hne '"' (by decide))
  next heq => exact absurd (List.cons.inj heq).1 (hne '[' (by decide))
  next heq => exact absurd (List.cons.inj heq).1 (hne '{' (by decide))
  next => rw [hread]; rfl

/-- What the three readers do on written text shorter than their fuel. -/
structure ReadsBack (fuel : ℕ) : Prop where
  value : ∀ (v : Json) (rest : List Char), v.write.length < fuel → NumberEnd rest →
    readValue fuel (v.write ++ rest) = some (v,rest)
  items : ∀ (v : Json) (vs : List Json) (rest : List Char),
    (v.write ++ writeItems vs).length < fuel →
    readItems fuel (v.write ++ writeItems vs ++ rest) = some (v :: vs,rest)
  members : ∀ (k : String) (v : Json) (ms : List (String × Json)) (rest : List Char),
    (quote k ++ ':' :: (v.write ++ writeMembers ms)).length < fuel →
    readMembers fuel (quote k ++ ':' :: (v.write ++ writeMembers ms) ++ rest) =
      some ((k,v) :: ms,rest)

theorem ReadsBack.value_succ {fuel : ℕ} (ih : ReadsBack fuel) (v : Json) (rest : List Char)
    (hf : v.write.length < fuel + 1) (hr : NumberEnd rest) :
    readValue (fuel + 1) (v.write ++ rest) = some (v,rest) := by
  match v with
  | null => simp [write,readValue,skipSpace,isSpace]
  | bool true => simp [write,readValue,skipSpace,isSpace]
  | bool false => simp [write,readValue,skipSpace,isSpace]
  | num d => rw [write]; exact readValue_number d fuel hr
  | str s =>
    have hq := readString_quote s rest
    have hs : skipSpace (quote s ++ rest) = quote s ++ rest := by
      simpa only [write] using skipSpace_write (str s) rest
    rw [write,readValue,hs]
    simp only [quote,List.cons_append] at hq ⊢
    rw [hq]
    rfl
  | arr [] => simp [write,readValue,skipSpace,isSpace]
  | arr (v :: vs) =>
    have hi := ih.items v vs rest (by simpa [write] using hf)
    obtain ⟨c,r,hc,hs,hb⟩ := write_head v
    simp only [write,List.cons_append,readValue,skipSpace_cons (show isSpace '[' = false by decide)]
    rw [hc] at hi ⊢
    simp only [List.cons_append,skipSpace_cons hs] at hi ⊢
    split
    next heq => exact absurd (List.cons.inj heq).1 hb
    next => rw [hi]; rfl
  | obj [] => simp [write,readValue,skipSpace,isSpace]
  | obj ((k,v) :: ms) =>
    have hi := ih.members k v ms rest (by simpa [write] using hf)
    simp only [write,List.cons_append,readValue,skipSpace_cons (show isSpace '{' = false by decide)]
    simp only [quote,List.cons_append,skipSpace_cons (show isSpace '"' = false by decide)] at hi ⊢
    rw [hi]
    rfl

theorem ReadsBack.items_succ {fuel : ℕ} (ih : ReadsBack fuel) (v : Json) (vs : List Json)
    (rest : List Char) (hf : (v.write ++ writeItems vs).length < fuel + 1) :
    readItems (fuel + 1) (v.write ++ writeItems vs ++ rest) = some (v :: vs,rest) := by
  rw [List.length_append] at hf
  rw [List.append_assoc,readItems]
  cases vs with
  | nil =>
    rw [writeItems,List.length_singleton] at hf
    rw [ih.value v _ (by omega) (numberEnd_writeItems [] rest)]
    simp [writeItems,skipSpace,isSpace]
  | cons w ws =>
    rw [writeItems,List.length_cons] at hf
    rw [ih.value v _ (by omega) (numberEnd_writeItems (w :: ws) rest)]
    simp only [Option.bind_some,writeItems,List.cons_append,
      skipSpace_cons (show isSpace ',' = false by decide)]
    rw [ih.items w ws rest (by omega)]
    rfl

theorem ReadsBack.members_succ {fuel : ℕ} (ih : ReadsBack fuel) (k : String) (v : Json)
    (ms : List (String × Json)) (rest : List Char)
    (hf : (quote k ++ ':' :: (v.write ++ writeMembers ms)).length < fuel + 1) :
    readMembers (fuel + 1) (quote k ++ ':' :: (v.write ++ writeMembers ms) ++ rest) =
      some ((k,v) :: ms,rest) := by
  have hs : ∀ r, skipSpace (quote k ++ r) = quote k ++ r := by
    simpa only [write] using skipSpace_write (str k)
  simp only [List.length_append,List.length_cons] at hf
  rw [List.append_assoc,readMembers,hs,readString_quote]
  simp only [Option.bind_some,List.cons_append,List.append_assoc,
    skipSpace_cons (show isSpace ':' = false by decide)]
  cases ms with
  | nil =>
    rw [ih.value v _ (by omega) (numberEnd_writeMembers [] rest)]
    simp [writeMembers,skipSpace,isSpace]
  | cons m ms =>
    obtain ⟨k',w⟩ := m
    rw [writeMembers,List.length_cons] at hf
    rw [ih.value v _ (by omega) (numberEnd_writeMembers ((k',w) :: ms) rest)]
    simp only [Option.bind_some,writeMembers,List.cons_append,
      skipSpace_cons (show isSpace ',' = false by decide)]
    rw [ih.members k' w ms rest (by omega)]
    rfl

theorem readsBack (fuel : ℕ) : ReadsBack fuel := by
  induction fuel with
  | zero => exact ⟨fun _ _ h => by omega,fun _ _ _ h => by omega,fun _ _ _ _ h => by omega⟩
  | succ fuel ih => exact ⟨ih.value_succ,ih.items_succ,ih.members_succ⟩

/-- `JSON.parse(JSON.stringify(value))` is the value. -/
@[simp] theorem parse_stringify (v : Json) : parse (stringify v) = some v := by
  have h := (readsBack (v.write.length + 1)).value v [] (Nat.lt_succ_self _) numberEnd_nil
  rw [List.append_nil] at h
  simp only [parse,stringify,String.toList_ofList,h]
  rfl

theorem stringify_injective : Function.Injective stringify := by
  intro a b h
  have hp := congrArg parse h
  simpa using hp

instance : DecidableEq Json := fun a b => decidable_of_iff (stringify a = stringify b)
  stringify_injective.eq_iff

end StructureAi.Foundation.Json
