import StructureAi.Foundation.Numeral

/-! # Session slots

The session cookie of a slot stands beside the usual one. A `Cookie` header is read pair by
pair, and its size is measured with the slot cookies cut out of its text.
-/
namespace StructureAi.Identity.Slots
open StructureAi.Foundation

/-- The characters of `/^[!#$%&'*+.^_|~0-9A-Za-z-]+$/u`, and the backtick. -/
def isTokenChar (c : Char) : Bool :=
  c.isAlphanum || c ∈ ['!','#','$','%','&','\'','*','+','.','^','_','\x60','|','~','-']

/-- A `cookieName` that the configuration of a tenant may have. -/
structure CookieName where
  name : List Char
  nonempty : name ≠ []
  token : name.all isTokenChar = true

def isSlotChar (c : Char) : Bool := c.isAlphanum || c = '_' || c = '-'

/-- `SLOT_PATTERN`. -/
def isSlot (slot : List Char) : Bool := 1 ≤ slot.length && slot.length ≤ 128 && slot.all isSlotChar

variable (cookieName : CookieName)

def slotCookieName (slot : List Char) : List Char := cookieName.name ++ '.' :: slot

/-- The slot a cookie name carries for the session cookie, if it is a slot cookie. -/
def slotOf (name : List Char) : Option (List Char) :=
  let start := cookieName.name ++ ['.']
  if start.isPrefixOf name then
    let slot := name.drop start.length
    if isSlot slot then some slot else none
  else none

def isSlotCookie (segment : List Char) : Bool :=
  '=' ∈ segment && (slotOf cookieName (trim (segment.takeWhile (· ≠ '=')))).isSome

/-- `text.length`. -/
def textLength (text : List Char) : ℕ := (text.flatMap unitsOf).length

def lengthWithoutSlotCookies (cookieHeader : List Char) : ℕ :=
  textLength ([';'].intercalate ((cookieHeader.splitOn ';').filter fun segment => !isSlotCookie cookieName segment))

/-- `MAX_COOKIE_HEADER_LENGTH`. -/
def maxCookieHeaderLength : ℕ := 16384

def pairOf (segment : List Char) : Option (List Char × List Char) :=
  if '=' ∈ segment then
    some (trim (segment.takeWhile (· ≠ '=')),trim ((segment.dropWhile (· ≠ '=')).drop 1))
  else none

def valueOf (name segment : List Char) : Option (List Char) :=
  match pairOf segment with
  | some (key,value) => if key = name ∧ value ≠ [] then some value else none
  | none => none

structure AuthValidationError where
  field : String
  reason : String
deriving DecidableEq

def validSlot : Option (List Char) → Except AuthValidationError (Option (List Char))
  | none => .ok none
  | some slot => if isSlot slot then .ok (some slot) else .error ⟨"slot","is not a valid session slot"⟩

def sessionTokenFromCookie (cookieHeader slotOption : Option (List Char)) :
    Except AuthValidationError (Option (List Char)) := do
  let slot ← validSlot slotOption
  match cookieHeader with
  | none => return none
  | some cookieHeader =>
    if textLength cookieHeader > maxCookieHeaderLength ∧
        lengthWithoutSlotCookies cookieName cookieHeader > maxCookieHeaderLength then
      return none
    let name := (slot.map (slotCookieName cookieName)).getD cookieName.name
    return (cookieHeader.splitOn ';').findSome? (valueOf name)

def IsSlotPair (pair : List Char) : Prop :=
  ∃ slot value, isSlot slot = true ∧ pair = slotCookieName cookieName slot ++ '=' :: value

/-- One more slot cookie, after a pair or before one. -/
inductive Inserted : List (List Char) → List (List Char) → Prop
  | after {pair : List Char} (h : IsSlotPair cookieName pair) (earlier later : List (List Char)) (segment : List Char) :
      Inserted (earlier ++ segment :: later) (earlier ++ segment :: (' ' :: pair) :: later)
  | before {pair gap : List Char} (h : IsSlotPair cookieName pair) (hgap : gap.all isWhiteSpace = true)
      (earlier later : List (List Char)) (segment : List Char) :
      Inserted (earlier ++ (gap ++ segment) :: later) (earlier ++ (gap ++ pair) :: (' ' :: segment) :: later)

/-- Any number of further slot cookies in a header. -/
def Extended (cookieHeader cookieHeader' : List Char) : Prop :=
  Relation.ReflTransGen (Inserted cookieName) (cookieHeader.splitOn ';') (cookieHeader'.splitOn ';')

/-- A pair of the header is the session cookie and carries a value. -/
def Carries (cookieHeader : List Char) : Prop :=
  ∃ segment ∈ cookieHeader.splitOn ';', (valueOf cookieName.name segment).isSome = true

section Pairs
variable {cookieName} {segment gap pair slot value name : List Char}

theorem dropWhile_gap (hgap : gap.all isWhiteSpace = true) (cs : List Char) :
    (gap ++ cs).dropWhile isWhiteSpace = cs.dropWhile isWhiteSpace :=
  List.dropWhile_append_of_pos (List.all_eq_true.mp hgap)

theorem trim_gap (hgap : gap.all isWhiteSpace = true) (cs : List Char) : trim (gap ++ cs) = trim cs := by
  unfold trim trimOf
  rw [dropWhile_gap hgap]

theorem gap_ne_equals (hgap : gap.all isWhiteSpace = true) : ∀ c ∈ gap, decide (c ≠ '=') = true := by
  intro c hc
  have hspace := List.all_eq_true.mp hgap c hc
  rw [decide_eq_true_eq]
  rintro rfl
  revert hspace
  decide

theorem pairOf_gap (hgap : gap.all isWhiteSpace = true) : pairOf (gap ++ segment) = pairOf segment := by
  have hne := gap_ne_equals hgap
  have hnot : '=' ∉ gap := fun hin => by simpa using hne '=' hin
  unfold pairOf
  rw [List.takeWhile_append_of_pos hne,List.dropWhile_append_of_pos hne,trim_gap hgap]
  simp only [List.mem_append,hnot,false_or]

theorem valueOf_gap (name segment : List Char) (hgap : gap.all isWhiteSpace = true) : valueOf name (gap ++ segment) =
    valueOf name segment := by
  rw [valueOf,pairOf_gap hgap,valueOf]

theorem toNat_lt_of_token {c : Char} (h : isTokenChar c = true) : c.toNat < 128 := by
  simp only [isTokenChar,Bool.or_eq_true,decide_eq_true_eq] at h
  rcases h with h | h
  · simp only [Char.isAlphanum,Char.isAlpha,Char.isUpper,Char.isLower,Char.isDigit,Bool.or_eq_true,Bool.and_eq_true,
      decide_eq_true_eq,UInt32.le_iff_toNat_le,ge_iff_le] at h
    have hval : c.val.toNat = c.toNat := rfl
    have hbounds : (90 : UInt32).toNat = 90 ∧ (122 : UInt32).toNat = 122 ∧ (57 : UInt32).toNat = 57 := ⟨rfl,rfl,rfl⟩
    simp only [Char.toNat] at *
    rcases h with (⟨-,h⟩ | ⟨-,h⟩) | ⟨-,h⟩
    · have hz : c.val.toNat ≤ 90 := h
      omega
    · have hz : c.val.toNat ≤ 122 := h
      omega
    · have hz : c.val.toNat ≤ 57 := h
      omega
  · simp only [List.mem_cons,List.not_mem_nil,or_false] at h
    rcases h with rfl | rfl | rfl | rfl | rfl | rfl | rfl | rfl | rfl | rfl | rfl | rfl | rfl | rfl | rfl <;> decide

theorem isTokenChar_plain {c : Char} (h : isTokenChar c = true) : isWhiteSpace c = false ∧ c ≠ '=' := by
  have hlt := toNat_lt_of_token h
  constructor
  · by_contra hspace
    rw [Bool.not_eq_false,isWhiteSpace,Bool.or_eq_true,decide_eq_true_eq] at hspace
    rcases hspace with hin | hrange
    · -- the whitespace below 128 is no token, the rest is above
      simp only [List.mem_cons,List.not_mem_nil,or_false] at hin
      rcases hin with rfl | rfl | rfl | rfl | rfl | rfl | rfl | rfl | rfl | rfl | rfl | rfl | rfl | rfl <;>
        exact absurd h (by decide)
    · simp only [Bool.and_eq_true,decide_eq_true_eq] at hrange
      omega
  · rintro rfl
    revert h
    decide

theorem isSlotChar_token {c : Char} (h : isSlotChar c = true) : isTokenChar c = true := by
  simp only [isSlotChar,isTokenChar,Bool.or_eq_true,decide_eq_true_eq] at h ⊢
  rcases h with (h | rfl) | rfl
  · exact Or.inl h
  · exact Or.inr (by decide)
  · exact Or.inr (by decide)

theorem slotCookieName_plain (cookieName : CookieName) (hslot : isSlot slot = true) :
    ∀ c ∈ slotCookieName cookieName slot, isWhiteSpace c = false ∧ c ≠ '=' := by
  intro c hc
  apply isTokenChar_plain
  rcases List.mem_append.mp hc with hc | hc
  · exact List.all_eq_true.mp cookieName.token c hc
  · rcases List.mem_cons.mp hc with rfl | hc
    · decide
    · simp only [isSlot,Bool.and_eq_true] at hslot
      exact isSlotChar_token (List.all_eq_true.mp hslot.2 c hc)

theorem pairOf_slot (hslot : isSlot slot = true) :
    pairOf (slotCookieName cookieName slot ++ '=' :: value) = some (slotCookieName cookieName slot,trim value) := by
  have hplain := slotCookieName_plain cookieName hslot
  have hne : ∀ c ∈ slotCookieName cookieName slot, decide (c ≠ '=') = true := fun c hc => decide_eq_true (hplain c hc).2
  have hin : '=' ∈ slotCookieName cookieName slot ++ '=' :: value := List.mem_append_right _ List.mem_cons_self
  rw [pairOf,if_pos hin,List.takeWhile_append_of_pos hne,List.dropWhile_append_of_pos hne,
    List.takeWhile_cons_of_neg (by simp),List.dropWhile_cons_of_neg (by simp),List.append_nil,List.drop_one,List.tail_cons,
    trim_of_no_space fun c hc => (hplain c hc).1]

theorem valueOf_slot (h : IsSlotPair cookieName pair) : valueOf cookieName.name pair = none := by
  obtain ⟨slot,value,hslot,rfl⟩ := h
  have hne : slotCookieName cookieName slot ≠ cookieName.name := by
    intro heq
    have hlength := congrArg List.length heq
    rw [slotCookieName,List.length_append,List.length_cons] at hlength
    omega
  rw [valueOf,pairOf_slot hslot]
  exact if_neg fun hboth => hne hboth.1

end Pairs

section Lookup
variable {cookieName}

theorem Inserted.findSome? {segments segments' : List (List Char)} (h : Inserted cookieName segments segments') :
    segments'.findSome? (valueOf cookieName.name) = segments.findSome? (valueOf cookieName.name) := by
  have hspace : [' '].all isWhiteSpace = true := by decide
  cases h with
  | @after pair h earlier later segment =>
    have hnone : valueOf cookieName.name (' ' :: pair) = none := by
      have hgap := valueOf_gap cookieName.name pair hspace
      exact hgap.trans (valueOf_slot h)
    simp only [List.findSome?_append,List.findSome?_cons,hnone]
  | @before pair gap h hgap earlier later segment =>
    have hnone : valueOf cookieName.name (gap ++ pair) = none := (valueOf_gap _ _ hgap).trans (valueOf_slot h)
    have hsame : valueOf cookieName.name (' ' :: segment) = valueOf cookieName.name (gap ++ segment) := by
      have hone := valueOf_gap cookieName.name segment hspace
      exact hone.trans (valueOf_gap _ _ hgap).symm
    simp only [List.findSome?_append,List.findSome?_cons,hnone,hsame]

theorem Extended.findSome? {cookieHeader cookieHeader' : List Char} (h : Extended cookieName cookieHeader cookieHeader') :
    (cookieHeader'.splitOn ';').findSome? (valueOf cookieName.name) =
      (cookieHeader.splitOn ';').findSome? (valueOf cookieName.name) := by
  unfold Extended at h
  generalize cookieHeader'.splitOn ';' = segments at h
  induction h with
  | refl => rfl
  | tail _ hstep ih => rw [hstep.findSome?,ih]

theorem carries_iff {cookieHeader : List Char} :
    Carries cookieName cookieHeader ↔ (cookieHeader.splitOn ';').findSome? (valueOf cookieName.name) ≠ none := by
  rw [Carries,← Option.isSome_iff_ne_none,List.findSome?_isSome_iff]

end Lookup

section Size
variable {cookieName}

theorem textLength_append (a b : List Char) : textLength (a ++ b) = textLength a + textLength b := by
  rw [textLength,List.flatMap_append,List.length_append,textLength,textLength]

theorem textLength_intercalate_cons (segment : List Char) (segments : List (List Char)) :
    textLength ([';'].intercalate (segment :: segments)) =
      textLength segment + if segments = [] then 0 else 1 + textLength ([';'].intercalate segments) := by
  cases segments with
  | nil => rw [if_pos rfl,List.intercalate_singleton,Nat.add_zero]
  | cons s segments =>
    rw [if_neg (List.cons_ne_nil _ _),List.intercalate_cons_cons,textLength_append,textLength_append]
    have hone : textLength [';'] = 1 := by decide
    omega

theorem textLength_filter_le (p : List Char → Bool) (segments : List (List Char)) :
    textLength ([';'].intercalate (segments.filter p)) ≤ textLength ([';'].intercalate segments) := by
  induction segments with
  | nil => exact le_rfl
  | cons segment segments ih =>
    rw [textLength_intercalate_cons segment segments]
    have hrest : (if segments.filter p = [] then 0 else 1 + textLength ([';'].intercalate (segments.filter p))) ≤
        if segments = [] then 0 else 1 + textLength ([';'].intercalate segments) := by
      by_cases hnil : segments = []
      · rw [hnil]
        exact le_rfl
      · rw [if_neg hnil]
        split
        · exact Nat.zero_le _
        · omega
    by_cases hp : p segment = true
    · rw [List.filter_cons_of_pos hp,textLength_intercalate_cons]
      exact Nat.add_le_add_left hrest _
    · rw [List.filter_cons_of_neg hp]
      by_cases hnil : segments.filter p = []
      · rw [hnil]
        exact Nat.zero_le _
      · rw [if_neg hnil] at hrest
        omega

theorem lengthWithoutSlotCookies_le (cookieName : CookieName) (cookieHeader : List Char) :
    lengthWithoutSlotCookies cookieName cookieHeader ≤ textLength cookieHeader := by
  have hle := textLength_filter_le (fun segment => !isSlotCookie cookieName segment) (cookieHeader.splitOn ';')
  rw [List.intercalate_splitOn] at hle
  exact hle

theorem sessionTokenFromCookie_usual (cookieHeader : List Char) : sessionTokenFromCookie cookieName (some cookieHeader) none =
    .ok (if maxCookieHeaderLength < lengthWithoutSlotCookies cookieName cookieHeader then none
      else (cookieHeader.splitOn ';').findSome? (valueOf cookieName.name)) := by
  have hle := lengthWithoutSlotCookies_le cookieName cookieHeader
  have hguard : (textLength cookieHeader > maxCookieHeaderLength ∧
      lengthWithoutSlotCookies cookieName cookieHeader > maxCookieHeaderLength) ↔
        maxCookieHeaderLength < lengthWithoutSlotCookies cookieName cookieHeader := by
    constructor
    · exact fun h => h.2
    · exact fun h => ⟨by omega,h⟩
  change (if textLength cookieHeader > maxCookieHeaderLength ∧
      lengthWithoutSlotCookies cookieName cookieHeader > maxCookieHeaderLength then
        (Except.ok none : Except AuthValidationError (Option (List Char))) else _) = _
  rw [if_congr hguard rfl rfl]
  split
  · rfl
  · rfl

end Size

/-- Further slot cookies leave the usual session just where the header carries none or is measured on the same
side of the limit as before; and a slot is served by its own cookie alone. -/
theorem slots_keep_session {cookieHeader cookieHeader' : List Char}
    (h : Extended cookieName cookieHeader cookieHeader') :
    (sessionTokenFromCookie cookieName (some cookieHeader') none = sessionTokenFromCookie cookieName (some cookieHeader) none ↔
      (Carries cookieName cookieHeader → (maxCookieHeaderLength < lengthWithoutSlotCookies cookieName cookieHeader ↔
        maxCookieHeaderLength < lengthWithoutSlotCookies cookieName cookieHeader'))) ∧
    ∀ slot value, sessionTokenFromCookie cookieName (some cookieHeader) (some slot) = .ok (some value) →
      ∃ segment ∈ cookieHeader.splitOn ';', pairOf segment = some (slotCookieName cookieName slot,value) := by
  constructor
  · rw [sessionTokenFromCookie_usual,sessionTokenFromCookie_usual,h.findSome?,carries_iff,Except.ok.injEq]
    by_cases hnone : (cookieHeader.splitOn ';').findSome? (valueOf cookieName.name) = none
    · simp [hnone]
    · have hne : none ≠ (cookieHeader.splitOn ';').findSome? (valueOf cookieName.name) := fun heq => hnone heq.symm
      by_cases hbefore : maxCookieHeaderLength < lengthWithoutSlotCookies cookieName cookieHeader <;>
        by_cases hafter : maxCookieHeaderLength < lengthWithoutSlotCookies cookieName cookieHeader' <;>
          simp [hbefore,hafter,hnone,hne]
  · intro slot value hvalue
    unfold sessionTokenFromCookie at hvalue
    by_cases hslot : isSlot slot = true
    · rw [validSlot,if_pos hslot] at hvalue
      change (if _ then (Except.ok none : Except AuthValidationError (Option (List Char))) else
        .ok ((cookieHeader.splitOn ';').findSome? (valueOf (slotCookieName cookieName slot)))) = _ at hvalue
      split at hvalue
      · cases hvalue
      · obtain ⟨segment,hin,hsegment⟩ := List.exists_of_findSome?_eq_some (Except.ok.inj hvalue)
        refine ⟨segment,hin,?_⟩
        unfold valueOf at hsegment
        split at hsegment
        · rename_i key found hpair
          split at hsegment
          · rename_i hkey
            rw [hpair,hkey.1,Option.some.inj hsegment]
          · cases hsegment
        · cases hsegment
    · rw [validSlot,if_neg hslot] at hvalue
      cases hvalue

section Limit

theorem ne_of_plain {segment : List Char} (h : ';' ∉ segment) : ∀ c ∈ segment, (c == ';') = false := by
  intro c hc
  rw [beq_eq_false_iff_ne]
  rintro rfl
  exact h hc

theorem splitOn_cons {segment rest : List Char} (h : ';' ∉ segment) :
    (segment ++ ';' :: rest).splitOn ';' = segment :: rest.splitOn ';' := by
  unfold List.splitOn
  exact List.splitOnP_append_cons_of_forall_mem (ne_of_plain h) ';' (beq_self_eq_true ';') rest

theorem splitOn_single {segment : List Char} (h : ';' ∉ segment) : segment.splitOn ';' = [segment] := by
  unfold List.splitOn
  exact List.splitOnP_eq_singleton (ne_of_plain h)

theorem extended_front {pair cookieHeader : List Char} (hpair : IsSlotPair cookieName pair) (h : ';' ∉ pair) :
    Extended cookieName cookieHeader (pair ++ ';' :: ' ' :: cookieHeader) := by
  unfold Extended
  rw [splitOn_cons h]
  obtain ⟨segment,later,hsplit⟩ := List.exists_cons_of_ne_nil (List.splitOn_ne_nil ';' cookieHeader)
  have hspace : (' ' :: cookieHeader).splitOn ';' = (' ' :: segment) :: later := by
    unfold List.splitOn at hsplit ⊢
    rw [List.splitOnP_cons_eq_if_modifyHead,if_neg (by decide),hsplit]
    rfl
  rw [hspace,hsplit]
  exact Relation.ReflTransGen.single (@Inserted.before cookieName _ [] hpair rfl [] later segment)

def structureSession : CookieName where
  name := "structure_session".toList
  nonempty := by decide
  token := by decide

def adaPair : List Char := "structure_session.ada=v".toList

theorem adaPair_isSlotPair : IsSlotPair structureSession adaPair :=
  ⟨"ada".toList,"v".toList,by decide,by decide⟩

theorem slots_keep_session_ada :
    sessionTokenFromCookie structureSession (some (adaPair ++ ';' :: ' ' :: "structure_session=t".toList)) none =
      sessionTokenFromCookie structureSession (some "structure_session=t".toList) none := by
  have hextended : Extended structureSession "structure_session=t".toList (adaPair ++
    ';' :: ' ' :: "structure_session=t".toList) :=
    extended_front structureSession adaPair_isSlotPair (by decide)
  refine (slots_keep_session structureSession hextended).1.mpr fun _ => ?_
  have hbefore : ¬ maxCookieHeaderLength < lengthWithoutSlotCookies structureSession "structure_session=t".toList := by
    decide +kernel
  have hafter : ¬ maxCookieHeaderLength < lengthWithoutSlotCookies structureSession
      (adaPair ++ ';' :: ' ' :: "structure_session=t".toList) := by
    decide +kernel
  exact iff_of_false hbefore hafter

def filler (n : ℕ) : List Char := ' ' :: 'x' :: '=' :: List.replicate n 'a'

theorem textLength_filler (n : ℕ) : textLength (filler n) = n + 3 := by
  have hreplicate : textLength (List.replicate n 'a') = n := by
    induction n with
    | zero => rfl
    | succ n ih =>
      have hcons := textLength_append ['a'] (List.replicate n 'a')
      have hone : textLength ['a'] = 1 := by decide
      rw [List.replicate_succ]
      rw [hone,ih] at hcons
      rw [← List.singleton_append,hcons,Nat.add_comm]
  have hstart : textLength [' ','x','='] = 3 := by decide
  have happend := textLength_append [' ','x','='] (List.replicate n 'a')
  rw [hstart,hreplicate] at happend
  rw [Nat.add_comm]
  exact happend

theorem filler_plain (n : ℕ) : ';' ∉ filler n := by
  simp [filler]

/-- A header with the session cookie and another one. -/
def header (n : ℕ) : List Char := "structure_session=t".toList ++ ';' :: filler n

theorem split_header (n : ℕ) : (header n).splitOn ';' = ["structure_session=t".toList,filler n] := by
  have hplain : ';' ∉ "structure_session=t".toList := by decide
  have hsingle : (filler n).splitOn ';' = [filler n] := splitOn_single (filler_plain n)
  unfold header
  rw [splitOn_cons hplain,hsingle]

theorem length_header (n : ℕ) : lengthWithoutSlotCookies structureSession (header n) = n + 23 := by
  have hfiller : isSlotCookie structureSession (filler n) = false := Bool.and_eq_false_iff.mpr (Or.inr rfl)
  have hsession : isSlotCookie structureSession "structure_session=t".toList = false := by decide
  unfold lengthWithoutSlotCookies
  rw [split_header,List.filter_cons_of_pos (by rw [hsession]; rfl),List.filter_cons_of_pos (by rw [hfiller]; rfl),
    List.filter_nil,
    textLength_intercalate_cons,List.intercalate_singleton,textLength_filler,if_neg (List.cons_ne_nil _ _)]
  have hlength : textLength "structure_session=t".toList = 19 := by decide
  omega

theorem length_header_front (n : ℕ) :
    lengthWithoutSlotCookies structureSession (adaPair ++ ';' :: ' ' :: header n) = n + 24 := by
  have hfiller : isSlotCookie structureSession (filler n) = false := Bool.and_eq_false_iff.mpr (Or.inr rfl)
  have hsession : isSlotCookie structureSession " structure_session=t".toList = false := by decide
  have hada : isSlotCookie structureSession adaPair = true := by decide
  have hsplit : (adaPair ++ ';' :: ' ' :: header n).splitOn ';' = [adaPair," structure_session=t".toList,filler n] := by
    have hrest : ' ' :: header n = " structure_session=t".toList ++ ';' :: filler n := rfl
    rw [splitOn_cons (by decide),hrest,splitOn_cons (by decide),splitOn_single (filler_plain n)]
  unfold lengthWithoutSlotCookies
  rw [hsplit,List.filter_cons_of_neg (by rw [hada]; decide),List.filter_cons_of_pos (by rw [hsession]; rfl),
    List.filter_cons_of_pos (by rw [hfiller]; rfl),List.filter_nil,textLength_intercalate_cons,List.intercalate_singleton,
    textLength_filler,if_neg (List.cons_ne_nil _ _)]
  have hlength : textLength " structure_session=t".toList = 20 := by decide
  omega

theorem session_cut (n : ℕ) (hn : n + 23 = maxCookieHeaderLength) :
    sessionTokenFromCookie structureSession (some (adaPair ++ ';' :: ' ' :: header n)) none = .ok none := by
  have hlong : maxCookieHeaderLength < n + 24 := by
    rw [← hn]
    exact Nat.lt_succ_self _
  rw [sessionTokenFromCookie_usual,length_header_front,if_pos hlong]

theorem session_read (n : ℕ) (hn : n + 23 = maxCookieHeaderLength) :
    sessionTokenFromCookie structureSession (some (header n)) none = .ok (some ['t']) := by
  have hshort : ¬ maxCookieHeaderLength < n + 23 := by
    rw [hn]
    exact Nat.lt_irrefl _
  have hsome : valueOf structureSession.name "structure_session=t".toList = some ['t'] := by decide
  rw [sessionTokenFromCookie_usual,length_header,if_neg hshort,split_header,List.findSome?_cons,hsome]

/-- At the limit, a slot cookie in front costs the usual session. -/
theorem slots_cost_session : ¬ ∀ cookieName cookieHeader cookieHeader', Extended cookieName cookieHeader cookieHeader' →
    sessionTokenFromCookie cookieName (some cookieHeader') none =
      sessionTokenFromCookie cookieName (some cookieHeader) none := by
  intro h
  have hn : maxCookieHeaderLength - 23 + 23 = maxCookieHeaderLength := Nat.sub_add_cancel (by decide)
  have hsame := h structureSession (header (maxCookieHeaderLength - 23))
    (adaPair ++ ';' :: ' ' :: header (maxCookieHeaderLength - 23))
    (extended_front structureSession adaPair_isSlotPair (by decide))
  rw [session_cut _ hn,session_read _ hn] at hsame
  cases hsame

end Limit

end StructureAi.Identity.Slots
