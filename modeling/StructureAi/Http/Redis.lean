import StructureAi.Foundation.Binary64
import StructureAi.Foundation.Chunks
import StructureAi.Foundation.TextUnits

/-! # The Redis client

Replies are cut off the text that the socket gave so far. A reply that is not complete yet is parsed again from
its beginning when more has come.
-/
namespace StructureAi.Http.Redis
open StructureAi.Foundation

structure RedisError where
  reason : JsString

/-- What a reply is decoded to. -/
inductive Value
  | undefined
  | text (s : JsString)
  | number (x : ℚ)
  | error (e : RedisError)
  | array (items : List Value)

/-- The text before the first CRLF, and what follows it. -/
def splitLine : JsString → Option (JsString × JsString)
  | u :: v :: rest =>
    if u = unit '\r' ∧ v = unit '\n' then some ([],rest)
    else (splitLine (v :: rest)).map fun (line,rest) => (u :: line,rest)
  | _ => none

/-- `Number(payload)`; `none` is no finite number. -/
def number (payload : JsString) : Option ℚ :=
  (Foundation.numberOf (String.ofList (payload.map fun u => Char.ofNat u.val))).bind fun d => binary64 d.value

/-- An error whose reason ends in what was received. -/
def fault (reason : String) (received : JsString) : Value := .error ⟨units reason.toList ++ received⟩

/-- `$`: so many units, and a terminator that is skipped unseen. -/
def bulkReply (payload rest : JsString) : Option (Value × JsString) :=
  match number payload with
  | none => some (fault "bad bulk reply: " payload,rest)
  | some length =>
    if length < 0 then some (if length = -1 then .undefined else fault "bad bulk reply: " payload,rest)
    else if (rest.length : ℚ) < length + 2 then none
    else some (.text (rest.take ⌊length⌋₊),rest.drop (⌊length⌋₊ + 2))

/-- The replies of an array, one after the other. -/
def parseItems (parse : JsString → Option (Value × JsString)) : ℕ → JsString → Option (List Value × JsString)
  | 0,remaining => some ([],remaining)
  | count + 1,remaining =>
    match parse remaining with
    | none => none
    | some (item,rest) => (parseItems parse count rest).map fun (items,rest) => (item :: items,rest)

/-- `*`: so many replies. -/
def arrayReply (parse : JsString → Option (Value × JsString)) (payload rest : JsString) : Option (Value × JsString) :=
  match number payload with
  | none => some (fault "bad array reply: " payload,rest)
  | some count =>
    if count < 0 then some (.undefined,rest)
    else (parseItems parse ⌈count⌉₊ rest).map fun (items,remaining) => (.array items,remaining)

def parseLine (parse : JsString → Option (Value × JsString)) (line rest : JsString) : Option (Value × JsString) :=
  match line with
  | [] => some (fault "unknown reply type: " (units "undefined".toList),rest)
  | type :: payload =>
    if type = unit '+' then some (.text payload,rest)
    else if type = unit '-' then some (fault "server error: " payload,rest)
    else if type = unit ':' then
      some (match number payload with
        | some asNumber => .number asNumber
        | none => fault "bad integer reply: " payload,rest)
    else if type = unit '$' then bulkReply payload rest
    else if type = unit '*' then arrayReply parse payload rest
    else some (fault "unknown reply type: " [type],rest)

/-- The reply that a text begins with, where arrays go no deeper than so many. -/
def parseReply : ℕ → JsString → Option (Value × JsString)
  | 0,_ => none
  | depth + 1,input =>
    match splitLine input with
    | none => none
    | some (line,rest) => parseLine (parseReply depth) line rest

/-- An array of any depth that fits in the text. -/
def parse (input : JsString) : Option (Value × JsString) := parseReply (input.length + 1) input

section Lengths
variable {input rest line payload : JsString} {value : Value}

theorem splitLine_length (h : splitLine input = some (line,rest)) : input.length = line.length + 2 + rest.length := by
  induction input using splitLine.induct generalizing line with
  | case1 u v tail hend =>
    rw [splitLine,if_pos hend] at h
    obtain ⟨rfl,rfl⟩ := Prod.mk.inj (Option.some.inj h)
    rw [List.length_cons,List.length_cons,List.length_nil]
    omega
  | case2 u v tail hend ih =>
    rw [splitLine,if_neg hend] at h
    obtain ⟨⟨line',rest'⟩,hsplit,heq⟩ := Option.map_eq_some_iff.mp h
    obtain ⟨rfl,rfl⟩ := Prod.mk.inj heq
    have hlength := ih hsplit
    simp only [List.length_cons] at hlength ⊢
    omega
  | case3 s hs =>
    cases s with
    | nil => cases h
    | cons u s =>
      cases s with
      | nil => cases h
      | cons v s => exact absurd rfl (hs u v s)

theorem bulkReply_length (h : bulkReply payload input = some (value,rest)) : rest.length ≤ input.length := by
  unfold bulkReply at h
  split at h
  · obtain ⟨-,rfl⟩ := Prod.mk.inj (Option.some.inj h)
    exact le_rfl
  · split at h
    · obtain ⟨-,rfl⟩ := Prod.mk.inj (Option.some.inj h)
      exact le_rfl
    · split at h
      · cases h
      · obtain ⟨-,rfl⟩ := Prod.mk.inj (Option.some.inj h)
        exact (List.drop_sublist _ _).length_le

theorem parseItems_length {parse : JsString → Option (Value × JsString)} {items : List Value} {count : ℕ}
    (hparse : ∀ {s value rest}, parse s = some (value,rest) → rest.length ≤ s.length)
    (h : parseItems parse count input = some (items,rest)) : rest.length ≤ input.length := by
  induction count generalizing input items with
  | zero =>
    obtain ⟨-,rfl⟩ := Prod.mk.inj (Option.some.inj h)
    exact le_rfl
  | succ count ih =>
    rw [parseItems] at h
    split at h
    · cases h
    · rename_i item remaining hitem
      obtain ⟨⟨items',rest'⟩,hitems,heq⟩ := Option.map_eq_some_iff.mp h
      obtain ⟨-,rfl⟩ := Prod.mk.inj heq
      exact (ih hitems).trans (hparse hitem)

theorem arrayReply_length {parse : JsString → Option (Value × JsString)}
    (hparse : ∀ {s value rest}, parse s = some (value,rest) → rest.length ≤ s.length)
    (h : arrayReply parse payload input = some (value,rest)) : rest.length ≤ input.length := by
  unfold arrayReply at h
  split at h
  · obtain ⟨-,rfl⟩ := Prod.mk.inj (Option.some.inj h)
    exact le_rfl
  · split at h
    · obtain ⟨-,rfl⟩ := Prod.mk.inj (Option.some.inj h)
      exact le_rfl
    · obtain ⟨⟨items,remaining⟩,hitems,heq⟩ := Option.map_eq_some_iff.mp h
      obtain ⟨-,rfl⟩ := Prod.mk.inj heq
      exact parseItems_length hparse hitems

theorem parseLine_length {parse : JsString → Option (Value × JsString)}
    (hparse : ∀ {s value rest}, parse s = some (value,rest) → rest.length ≤ s.length)
    (h : parseLine parse line input = some (value,rest)) : rest.length ≤ input.length := by
  have hdone : ∀ {v : Value}, some (v,input) = some (value,rest) → rest.length ≤ input.length := by
    intro v h
    obtain ⟨-,rfl⟩ := Prod.mk.inj (Option.some.inj h)
    exact le_rfl
  unfold parseLine at h
  repeat' split at h
  · exact hdone h
  · exact hdone h
  · exact hdone h
  · exact hdone h
  · exact hdone h
  · exact bulkReply_length h
  · exact arrayReply_length hparse h
  · exact hdone h

theorem parseReply_length {depth : ℕ} (h : parseReply depth input = some (value,rest)) : rest.length + 2 ≤ input.length := by
  induction depth generalizing input value rest with
  | zero => cases h
  | succ depth ih =>
    rw [parseReply] at h
    split at h
    · cases h
    · rename_i line after hline
      have hlength := splitLine_length hline
      have hrest := parseLine_length (fun hitem => Nat.le_of_add_right_le (ih hitem)) h
      omega

end Lengths

def replies : Cutter CodeUnit Value where
  cut := parse
  shorter := by
    intro buffer value rest h
    have hlength := parseReply_length h
    omega

/-- The waiters, by number, and what was handed out so far: a reply for which nobody waits is dropped. -/
structure Client where
  pending : List ℕ
  handed : List (Option ℕ × Except RedisError Value)

/-- An error rejects the waiter, any other reply resolves it. -/
def outcome : Value → Except RedisError Value
  | .error e => .error e
  | value => .ok value

def deliver (client : Client) (value : Value) : Client :=
  ⟨client.pending.tail,client.handed ++ [(client.pending.head?,outcome value)]⟩

/-- `chunk.toString("utf8")` -/
def chunkText (chunk : List UInt8) : JsString := ofText (decodeUtf8 chunk)

/-- The handler of `data`: the chunk goes to the end of the buffer, which is drained. -/
def onData (state : JsString × Client) (chunk : List UInt8) : JsString × Client :=
    replies.process deliver state (chunkText chunk)

end StructureAi.Http.Redis
