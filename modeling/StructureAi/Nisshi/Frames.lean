import StructureAi.Foundation.Chunks
import StructureAi.Nisshi.RecordBatchRoundTrip

/-! # Frames of the broker

What the socket gives is gathered until it holds whole frames. The first frame that a correlation
id heads resolves the request that waits under the id.
-/
namespace StructureAi.Nisshi
open StructureAi.Foundation

/-- `readInt32BE(0)`, of four bytes at least. -/
def readInt32 (bytes : List UInt8) : ℤ := Reader.asInt 4 (Reader.ofBytes (bytes.take 4))

/-- The body of the frame that is whole in front of the buffer, and the rest. -/
def cutFrame (receive : List UInt8) : Option (List UInt8 × List UInt8) :=
  if receive.length < 4 then none
  else if readInt32 receive < 4 ∨ (receive.length : ℤ) < 4 + readInt32 receive then none
  else some ((receive.drop 4).take (readInt32 receive).toNat,receive.drop (4 + (readInt32 receive).toNat))

theorem cutFrame_some {receive body rest : List UInt8} (h : cutFrame receive = some (body,rest)) :
    4 ≤ readInt32 receive ∧ 4 + (readInt32 receive).toNat ≤ receive.length ∧
      body = (receive.drop 4).take (readInt32 receive).toNat ∧ rest = receive.drop (4 + (readInt32 receive).toNat) := by
  unfold cutFrame at h
  split at h
  next => cases h
  next hfour =>
    split at h
    next => cases h
    next hsize =>
      obtain ⟨rfl,rfl⟩ := Prod.mk.inj (Option.some.inj h)
      rw [not_or,not_lt,not_lt] at hsize
      refine ⟨hsize.1,?_,rfl,rfl⟩
      omega

def frames : Cutter UInt8 (List UInt8) where
  cut := cutFrame
  shorter := by
    intro receive body rest h
    obtain ⟨hsize,hlength,-,rfl⟩ := cutFrame_some h
    rw [List.length_drop]
    omega

/-- The requests that wait, each under its id and with a deferred of its own, and those that were resolved. -/
structure Waiting where
  pending : List ℤ
  resolved : List (ℤ × List UInt8)

def takePending (corr : ℤ) (answer : List UInt8) (w : Waiting) : Waiting :=
  if corr ∈ w.pending then ⟨w.pending.filter (· ≠ corr),w.resolved ++ [(corr,answer)]⟩ else w

def correlation (body : List UInt8) : ℤ := if 4 ≤ body.length then readInt32 body else -1

def deliver (w : Waiting) (body : List UInt8) : Waiting :=
  if 0 ≤ correlation body then takePending (correlation body) (body.drop 4) w else w

/-- The handler of `data`: the buffer and the requests after a chunk. -/
def onData : List UInt8 × Waiting → List UInt8 → List UInt8 × Waiting := frames.process deliver

/-- A frame as the broker sends it. -/
structure Frame where
  body : List UInt8
  headed : 4 ≤ body.length
  size : body.length < 2 ^ 31

def Frame.wire (f : Frame) : List UInt8 := Writer.i32 f.body.length ++ f.body

section Cutting
variable {receive more : List UInt8}

theorem readInt32_append (h : 4 ≤ receive.length) : readInt32 (receive ++ more) = readInt32 receive := by
  rw [readInt32,readInt32,List.take_append_of_le_length h]

theorem frames_stable : frames.Stable := by
  intro receive body rest h more
  obtain ⟨hsize,hlength,rfl,rfl⟩ := cutFrame_some h
  have hfour : 4 ≤ receive.length := by omega
  have hread : readInt32 (receive ++ more) = readInt32 receive := readInt32_append hfour
  change cutFrame (receive ++ more) = _
  unfold cutFrame
  rw [hread,if_neg (by rw [List.length_append]; omega),if_neg (by rw [List.length_append]; omega),
    List.drop_append_of_le_length hfour,List.drop_append_of_le_length hlength,
    List.take_append_of_le_length (by rw [List.length_drop]; omega)]

theorem frames_cut (f : Frame) (rest : List UInt8) : frames.cut (f.wire ++ rest) = some (f.body,rest) := by
  have hheaded := f.headed
  have hsize : (f.body.length : ℤ) < 2 ^ 31 := by exact_mod_cast f.size
  have hfour : (Writer.i32 f.body.length).length = 4 := length_bigEndian 4 _
  have hread : readInt32 (f.wire ++ rest) = f.body.length := by
    rw [Frame.wire,List.append_assoc,readInt32_append hfour.ge,readInt32,List.take_of_length_le hfour.le]
    exact asInt_bigEndian (by decide) (by omega) hsize
  have hlength : (f.wire ++ rest).length = 4 + f.body.length + rest.length := by
    rw [Frame.wire,List.length_append,List.length_append,hfour]
  have hbody : ((f.wire ++ rest).drop 4).take f.body.length = f.body := by
    rw [Frame.wire,List.append_assoc,← hfour,List.drop_left,List.take_left]
  have hrest : (f.wire ++ rest).drop (4 + f.body.length) = rest := by
    have hwire : f.wire.length = 4 + f.body.length := by rw [Frame.wire,List.length_append,hfour]
    rw [← hwire,List.drop_left]
  change cutFrame (f.wire ++ rest) = _
  unfold cutFrame
  rw [hread,hlength,if_neg (by omega),if_neg (by omega),Int.toNat_natCast,hbody,hrest]

end Cutting

section Delivery
variable {corr : ℤ} {w : Waiting}

/-- What the request under an id was resolved with, each time. -/
def Waiting.answers (w : Waiting) (corr : ℤ) : List (List UInt8) := (w.resolved.filter (·.1 = corr)).map Prod.snd

theorem deliver_of_ne {body : List UInt8} (h : correlation body ≠ corr) :
    (corr ∈ (deliver w body).pending ↔ corr ∈ w.pending) ∧ (deliver w body).answers corr = w.answers corr := by
  unfold deliver takePending
  split
  next =>
    split
    next => simp [Waiting.answers,h,Ne.symm h]
    next => exact ⟨Iff.rfl,rfl⟩
  next => exact ⟨Iff.rfl,rfl⟩

theorem deliver_self {body : List UInt8} (hcorr : 0 ≤ corr) (h : correlation body = corr) (hpending : corr ∈ w.pending) :
    corr ∉ (deliver w body).pending ∧ (deliver w body).answers corr = w.answers corr ++ [body.drop 4] := by
  rw [deliver,h,if_pos hcorr,takePending,if_pos hpending]
  simp [Waiting.answers]

theorem deliver_absent (body : List UInt8) (hpending : corr ∉ w.pending) :
    corr ∉ (deliver w body).pending ∧ (deliver w body).answers corr = w.answers corr := by
  by_cases h : correlation body = corr
  · have hsame : deliver w body = w := by
      rw [deliver,takePending,h,if_neg hpending,ite_self]
    rw [hsame]
    exact ⟨hpending,rfl⟩
  · obtain ⟨hmem,hanswers⟩ := deliver_of_ne h (w := w)
    exact ⟨fun hin => hpending (hmem.mp hin),hanswers⟩

theorem foldl_deliver_absent (bodies : List (List UInt8)) (hpending : corr ∉ w.pending) :
    (bodies.foldl deliver w).answers corr = w.answers corr := by
  induction bodies generalizing w with
  | nil => rfl
  | cons body bodies ih =>
    obtain ⟨habsent,hanswers⟩ := deliver_absent body hpending
    rw [List.foldl_cons,ih habsent,hanswers]

theorem foldl_deliver (bodies : List (List UInt8)) (hcorr : 0 ≤ corr) (hpending : corr ∈ w.pending) :
    (bodies.foldl deliver w).answers corr =
      w.answers corr ++ ((bodies.find? fun body => correlation body = corr).map (·.drop 4)).toList := by
  induction bodies generalizing w with
  | nil => exact (List.append_nil _).symm
  | cons body bodies ih =>
    rw [List.foldl_cons]
    by_cases h : correlation body = corr
    · obtain ⟨habsent,hanswers⟩ := deliver_self hcorr h hpending
      rw [foldl_deliver_absent bodies habsent,hanswers,List.find?_cons_of_pos (by simpa using h)]
      rfl
    · obtain ⟨hmem,hanswers⟩ := deliver_of_ne h (w := w)
      rw [ih (hmem.mpr hpending),hanswers,List.find?_cons_of_neg (by simpa using h)]

end Delivery

section Reassembly
variable {fs : List Frame} {chunks : List (List UInt8)}

/-- However the frames were split, nothing of them is left over, and every request that waits is resolved once
with what follows its id in the first frame the id heads, or not at all if it heads none. -/
theorem frames_reassembled (h : chunks.flatten = fs.flatMap Frame.wire) (pending : List ℤ) :
    (chunks.foldl onData ([],⟨pending,[]⟩)).1 = [] ∧ ∀ corr ∈ pending, 0 ≤ corr →
      (chunks.foldl onData ([],⟨pending,[]⟩)).2.answers corr =
        ((fs.find? fun f => correlation f.body = corr).map fun f => f.body.drop 4).toList := by
  have hreceived : frames.receive chunks = (fs.map Frame.body,[]) := by
    rw [frames_stable.receive_eq,h]
    exact Cutter.drain_encoded fun f _ rest => frames_cut f rest
  rw [onData,Cutter.foldl_process,hreceived]
  refine ⟨rfl,?_⟩
  intro corr hin hcorr
  rw [foldl_deliver (fs.map Frame.body) hcorr hin,List.find?_map,Option.map_map]
  rfl

def shortFrames : List Frame :=
  [⟨[0,0,0,7,1],by decide,by decide⟩,⟨[0,0,0,7,2],by decide,by decide⟩,⟨[0,0,0,9],by decide,by decide⟩]

/-- Split inside a size, inside an id and between frames. -/
def shortChunks : List (List UInt8) :=
  [[0,0],[0,5,0,0],[0,7,1],[0,0,0,5,0,0,0,7,2,0,0,0,4,0],[0,0,9]]

theorem frames_reassembled_short : (shortChunks.foldl onData ([],⟨[7,9,11],[]⟩)).1 = [] ∧
    (shortChunks.foldl onData ([],⟨[7,9,11],[]⟩)).2.answers 7 = [[1]] ∧
    (shortChunks.foldl onData ([],⟨[7,9,11],[]⟩)).2.answers 11 = [] := by
  have hwire : shortChunks.flatten = shortFrames.flatMap Frame.wire := by decide
  obtain ⟨hrest,hanswers⟩ := frames_reassembled hwire [7,9,11]
  refine ⟨hrest,(hanswers 7 (by decide) (by decide)).trans ?_,(hanswers 11 (by decide) (by decide)).trans ?_⟩
  · decide
  · decide

end Reassembly
end StructureAi.Nisshi
