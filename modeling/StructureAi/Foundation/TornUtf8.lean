import StructureAi.Foundation.Bytes

/-! # UTF-8 in chunks

A text is encoded, the bytes are cut into chunks, and each chunk is decoded by itself. A character that is cut
comes out as two or more replacement characters; all the others come out as they are.
-/
namespace StructureAi.Foundation
variable {c : Char} {text read more : List Char} {bytes rest : List UInt8} {chunks : List (List UInt8)}

def IsContinuation (b : UInt8) : Prop := 0x80 ≤ b.toNat ∧ b.toNat < 0xC0

/-- How a text may read after some of its characters were cut. -/
inductive Torn : List Char → List Char → Prop
  | nil : Torn [] []
  | whole (c : Char) {text read : List Char} (h : Torn text read) : Torn (c :: text) (c :: read)
  | cut {c : Char} (hc : 0x80 ≤ c.toNat) (n : ℕ) {text read : List Char} (h : Torn text read) :
      Torn (c :: text) (List.replicate (n + 2) '\uFFFD' ++ read)

section Encoding

theorem encodeUtf8_cons (c : Char) (text : List Char) : encodeUtf8 (c :: text) = String.utf8EncodeChar c ++
    encodeUtf8 text := rfl

theorem encodeUtf8_append (text more : List Char) : encodeUtf8 (text ++ more) = encodeUtf8 text ++ encodeUtf8 more :=
    List.flatMap_append

theorem decodeUtf8_append (text : List Char) (rest : List UInt8) : decodeUtf8 (encodeUtf8 text ++ rest) = text ++
    decodeUtf8 rest := by
  unfold decodeUtf8
  induction text with
  | nil => rfl
  | cons c text ih => rw [encodeUtf8_cons,List.append_assoc,Utf8Pending.decode_encodeChar,ih,List.cons_append]

theorem decodeUtf8_continuation {b : UInt8} (h : IsContinuation b) (rest : List UInt8) :
    decodeUtf8 (b :: rest) = '\uFFFD' :: decodeUtf8 rest := by
  obtain ⟨hlower,hupper⟩ := h
  unfold decodeUtf8
  rw [Utf8Pending.decode,Utf8Pending.start,if_neg (by omega),if_pos (by omega)]
  rfl

theorem decodeUtf8_continuations (h : ∀ b ∈ bytes, IsContinuation b) (rest : List UInt8) :
    decodeUtf8 (bytes ++ rest) = List.replicate bytes.length '\uFFFD' ++ decodeUtf8 rest := by
  induction bytes with
  | nil => rfl
  | cons b bytes ih =>
    rw [List.cons_append,decodeUtf8_continuation (h b List.mem_cons_self),ih fun b' hb => h b' (List.mem_cons_of_mem b hb),
      List.length_cons,List.replicate_succ,List.cons_append]

/-- A character of one byte, or a byte that begins one of several, after which less than the rest is one replacement. -/
theorem utf8EncodeChar_cases (c : Char) : (c.toNat < 0x80 ∧ ∃ b, String.utf8EncodeChar c = [b]) ∨
    (0x80 ≤ c.toNat ∧ ∃ b tail, String.utf8EncodeChar c = b :: tail ∧ tail ≠ [] ∧ (∀ b' ∈ tail, IsContinuation b') ∧
      ∀ head last, head ++ last = tail → last ≠ [] → decodeUtf8 (b :: head) = ['\uFFFD']) := by
  have hvalid : c.toNat < 0xD800 ∨ 0xDFFF < c.toNat ∧ c.toNat < 0x110000 := c.valid
  have htoNat : c.val.toNat = c.toNat := rfl
  have hlast : ∀ n < 64, IsContinuation (UInt8.ofNat (n + 0x80)) := by
    intro n hn
    unfold IsContinuation
    rw [toNat_byte (by omega)]
    omega
  unfold String.utf8EncodeChar decodeUtf8
  rw [htoNat]
  generalize hn : c.toNat = n at *
  dsimp only
  split
  · exact Or.inl ⟨by omega,_,rfl⟩
  · right
    refine ⟨by omega,?_⟩
    split
    · have hb : (UInt8.ofNat (n / 64 % 32 + 192)).toNat = n / 64 + 192 := by
        rw [toNat_byte (by omega)]
        omega
      refine ⟨_,_,rfl,List.cons_ne_nil _ _,?_,?_⟩
      · simp only [List.mem_singleton,forall_eq]
        exact hlast _ (by omega)
      · intro head last hsplit hne
        obtain rfl : head = [] := by
          have hlength := congrArg List.length hsplit
          rw [List.length_append,List.length_singleton] at hlength
          have hpos := List.length_pos_of_ne_nil hne
          exact List.eq_nil_of_length_eq_zero (by omega)
        rw [Utf8Pending.decode,Utf8Pending.start,hb,if_neg (by omega),if_neg (by omega),if_pos (by omega)]
        rfl
    · split
      · have hb : (UInt8.ofNat (n / 4096 % 16 + 224)).toNat = n / 4096 + 224 := by
          rw [toNat_byte (by omega)]
          omega
        refine ⟨_,_,rfl,List.cons_ne_nil _ _,?_,?_⟩
        · simp only [List.mem_cons,List.not_mem_nil,or_false,forall_eq_or_imp,forall_eq]
          exact ⟨hlast _ (by omega),hlast _ (by omega)⟩
        · intro head last hsplit hne
          rw [Utf8Pending.decode,Utf8Pending.start,hb,if_neg (by omega),if_neg (by omega),if_neg (by omega),if_pos (by omega),
            List.nil_append]
          rcases head with _ | ⟨b₁,_ | ⟨b₂,head⟩⟩
          · rfl
          · obtain ⟨rfl,-⟩ := List.cons.inj hsplit
            rw [Utf8Pending.decode,Utf8Pending.advance_more (by omega) (by split <;> omega) (by split <;> omega)]
            rfl
          · have hlength := congrArg List.length hsplit
            simp only [List.length_append,List.length_cons,List.length_nil] at hlength
            have hpos := List.length_pos_of_ne_nil hne
            omega
      · have hb : (UInt8.ofNat (n / 262144 % 8 + 240)).toNat = n / 262144 + 240 := by
          rw [toNat_byte (by omega)]
          omega
        refine ⟨_,_,rfl,List.cons_ne_nil _ _,?_,?_⟩
        · simp only [List.mem_cons,List.not_mem_nil,or_false,forall_eq_or_imp,forall_eq]
          exact ⟨hlast _ (by omega),hlast _ (by omega),hlast _ (by omega)⟩
        · intro head last hsplit hne
          rw [Utf8Pending.decode,Utf8Pending.start,hb,if_neg (by omega),if_neg (by omega),if_neg (by omega),if_neg (by omega),
            if_pos (by omega),List.nil_append]
          rcases head with _ | ⟨b₁,_ | ⟨b₂,_ | ⟨b₃,head⟩⟩⟩
          · rfl
          · obtain ⟨rfl,-⟩ := List.cons.inj hsplit
            rw [Utf8Pending.decode,Utf8Pending.advance_more (by omega) (by split <;> omega) (by split <;> omega)]
            rfl
          · obtain ⟨rfl,hmore⟩ := List.cons.inj hsplit
            obtain ⟨rfl,-⟩ := List.cons.inj hmore
            rw [Utf8Pending.decode,Utf8Pending.advance_more (by omega) (by split <;> omega) (by split <;> omega),List.nil_append,
              Utf8Pending.decode,Utf8Pending.advance_more (by omega) (by omega) (by omega)]
            rfl
          · have hlength := congrArg List.length hsplit
            simp only [List.length_append,List.length_cons,List.length_nil] at hlength
            have hpos := List.length_pos_of_ne_nil hne
            omega

theorem encodeUtf8_split (h : bytes ++ rest = encodeUtf8 text) :
    (∃ read more, text = read ++ more ∧ bytes = encodeUtf8 read ∧ rest = encodeUtf8 more) ∨
      ∃ read c more before after, text = read ++ c :: more ∧ bytes = encodeUtf8 read ++ before ∧
        rest = after ++ encodeUtf8 more ∧
        before ++ after = String.utf8EncodeChar c ∧ before ≠ [] ∧ after ≠ [] := by
  induction text generalizing bytes with
  | nil =>
    obtain ⟨rfl,rfl⟩ := List.append_eq_nil_iff.mp h
    exact Or.inl ⟨[],[],rfl,rfl,rfl⟩
  | cons c text ih =>
    rw [encodeUtf8_cons] at h
    rcases List.append_eq_append_iff.mp h with ⟨after,hchar,hrest⟩ | ⟨bytes',hbytes,hmore⟩
    · by_cases hbefore : bytes = []
      · refine Or.inl ⟨[],c :: text,rfl,hbefore,?_⟩
        rw [hrest,encodeUtf8_cons,hchar,hbefore,List.nil_append]
      · by_cases hafter : after = []
        · rw [hafter,List.append_nil] at hchar
          rw [hafter,List.nil_append] at hrest
          refine Or.inl ⟨[c],text,rfl,?_,hrest⟩
          rw [← hchar]
          exact (List.append_nil _).symm
        · exact Or.inr ⟨[],c,text,bytes,after,rfl,rfl,hrest,hchar.symm,hbefore,hafter⟩
    · rcases ih hmore.symm with ⟨read,more,rfl,rfl,hrest⟩ | ⟨read,d,more,before,after,rfl,rfl,hrest,hchar,hbefore,hafter⟩
      · exact Or.inl ⟨c :: read,more,rfl,hbytes,hrest⟩
      · refine Or.inr ⟨c :: read,d,more,before,after,rfl,?_,hrest,hchar,hbefore,hafter⟩
        rw [hbytes,encodeUtf8_cons,List.append_assoc]

end Encoding

section Reading

theorem decodeUtf8_cut {before after : List UInt8} (h : before ++ after = String.utf8EncodeChar c) (hbefore : before ≠ [])
    (hafter : after ≠ []) :
    0x80 ≤ c.toNat ∧ decodeUtf8 before = ['\uFFFD'] ∧ ∀ b ∈ after, IsContinuation b := by
  obtain ⟨first,head,rfl⟩ := List.exists_cons_of_ne_nil hbefore
  rcases utf8EncodeChar_cases c with ⟨-,b,hchar⟩ | ⟨hc,b,tail,hchar,-,htail,hread⟩
  · rw [hchar,List.cons_append] at h
    exact absurd (List.append_eq_nil_iff.mp (List.cons.inj h).2).2 hafter
  · rw [hchar,List.cons_append] at h
    obtain ⟨rfl,hsplit⟩ := List.cons.inj h
    exact ⟨hc,hread head after hsplit hafter,fun b hb => htail b (hsplit ▸ List.mem_append_right head hb)⟩

theorem Torn.whole_append (text : List Char) (h : Torn more read) : Torn (text ++ more) (text ++ read) := by
  induction text with
  | nil => exact h
  | cons c text ih => exact .whole c ih

theorem Torn.length_le (h : Torn text read) : text.length ≤ read.length := by
  induction h with
  | nil => exact le_rfl
  | whole c _ ih => exact Nat.succ_le_succ ih
  | cut hc n _ ih =>
    rw [List.length_append,List.length_replicate,List.length_cons]
    omega

theorem torn_chunks {left : List UInt8} (hleft : ∀ b ∈ left, IsContinuation b) (h : chunks.flatten = left ++ encodeUtf8 text) :
    ∃ read, Torn text read ∧ chunks.flatMap decodeUtf8 = List.replicate left.length '\uFFFD' ++ read := by
  induction chunks generalizing left text with
  | nil =>
    obtain ⟨rfl,htext⟩ := List.append_eq_nil_iff.mp h.symm
    cases text with
    | nil => exact ⟨[],.nil,rfl⟩
    | cons c text =>
      rw [encodeUtf8_cons] at htext
      rcases utf8EncodeChar_cases c with ⟨-,b,hchar⟩ | ⟨-,b,tail,hchar,-⟩
      · rw [hchar] at htext
        cases htext
      · rw [hchar] at htext
        cases htext
  | cons chunk chunks ih =>
    rw [List.flatten_cons] at h
    rw [List.flatMap_cons]
    rcases List.append_eq_append_iff.mp h with ⟨later,rfl,hchunks⟩ | ⟨bytes,rfl,hbytes⟩
    · obtain ⟨read,htorn,hread⟩ := ih (fun b hb => hleft b (List.mem_append_right chunk hb)) hchunks
      refine ⟨read,htorn,?_⟩
      have hchunk := decodeUtf8_continuations (fun b hb => hleft b (List.mem_append_left later hb)) []
      have hnil : decodeUtf8 [] = [] := rfl
      rw [List.append_nil,hnil,List.append_nil] at hchunk
      rw [hread,hchunk,List.length_append,List.replicate_add,List.append_assoc]
    · rw [decodeUtf8_continuations hleft]
      rcases encodeUtf8_split hbytes.symm with ⟨whole,more,rfl,rfl,hrest⟩ |
        ⟨whole,c,more,before,after,rfl,rfl,hrest,hchar,hbefore,hafter⟩
      · obtain ⟨read,htorn,hread⟩ := ih (fun b hb => absurd hb List.not_mem_nil) hrest
        refine ⟨whole ++ read,htorn.whole_append whole,?_⟩
        rw [hread,decodeUtf8_encodeUtf8,List.append_assoc]
        rfl
      · obtain ⟨hc,hcut,hlater⟩ := decodeUtf8_cut hchar hbefore hafter
        obtain ⟨read,htorn,hread⟩ := ih hlater hrest
        obtain ⟨n,hn⟩ := Nat.exists_eq_add_of_lt (List.length_pos_of_ne_nil hafter)
        refine ⟨whole ++ (List.replicate (n + 2) '\uFFFD' ++ read),(Torn.cut hc n htorn).whole_append whole,?_⟩
        have hpieces : List.replicate (n + 2) '\uFFFD' = ['\uFFFD'] ++ List.replicate after.length '\uFFFD' := by
          rw [hn,Nat.zero_add]
          exact List.replicate_succ
        rw [hread,decodeUtf8_append,hcut,hpieces,List.append_assoc,List.append_assoc,List.append_assoc]

theorem torn_of_chunks (h : chunks.flatten = encodeUtf8 text) : Torn text (chunks.flatMap decodeUtf8) := by
  obtain ⟨read,htorn,hread⟩ := torn_chunks (fun b hb => absurd hb List.not_mem_nil) (h.trans (List.nil_append _).symm)
  rw [hread]
  exact htorn

theorem chunks_whole (h : chunks.flatten = encodeUtf8 text) (hlength : (chunks.flatMap decodeUtf8).length ≤ text.length) :
    ∀ chunk ∈ chunks, ∃ whole, chunk = encodeUtf8 whole := by
  induction chunks generalizing text with
  | nil => exact fun chunk hchunk => absurd hchunk List.not_mem_nil
  | cons chunk chunks ih =>
    rw [List.flatten_cons] at h
    rw [List.flatMap_cons,List.length_append] at hlength
    rcases encodeUtf8_split h with ⟨whole,more,rfl,rfl,hrest⟩ | ⟨whole,c,more,before,after,rfl,rfl,hrest,hchar,hbefore,hafter⟩
    · rw [decodeUtf8_encodeUtf8,List.length_append] at hlength
      intro chunk hchunk
      rcases List.mem_cons.mp hchunk with rfl | hchunk
      · exact ⟨whole,rfl⟩
      · exact ih hrest (by omega) chunk hchunk
    · obtain ⟨-,hcut,hlater⟩ := decodeUtf8_cut hchar hbefore hafter
      obtain ⟨read,htorn,hread⟩ := torn_chunks hlater hrest
      have hmore := htorn.length_le
      have hpos := List.length_pos_of_ne_nil hafter
      rw [decodeUtf8_append,hcut,hread] at hlength
      simp only [List.length_append,List.length_cons,List.length_nil,List.length_replicate] at hlength
      omega

theorem read_of_whole (h : chunks.flatten = encodeUtf8 text) (hwhole : ∀ chunk ∈ chunks, ∃ whole, chunk = encodeUtf8 whole) :
    chunks.flatMap decodeUtf8 = text := by
  have hencode : encodeUtf8 (chunks.flatMap decodeUtf8) = chunks.flatten := by
    clear h
    induction chunks with
    | nil => rfl
    | cons chunk chunks ih =>
      obtain ⟨whole,rfl⟩ := hwhole chunk List.mem_cons_self
      rw [List.flatMap_cons,encodeUtf8_append,decodeUtf8_encodeUtf8,ih fun c hc => hwhole c (List.mem_cons_of_mem _ hc),
        List.flatten_cons]
  exact encodeUtf8_injective (hencode.trans h)

theorem Torn.append_left (h : Torn (text ++ more) read) : ∃ first second, read = first ++ second ∧ Torn text first ∧
    Torn more second := by
  induction text generalizing read with
  | nil => exact ⟨[],read,rfl,.nil,h⟩
  | cons c text ih =>
    cases h with
    | whole _ h =>
      obtain ⟨first,second,rfl,hfirst,hsecond⟩ := ih h
      exact ⟨c :: first,second,rfl,.whole c hfirst,hsecond⟩
    | cut hc n h =>
      obtain ⟨first,second,rfl,hfirst,hsecond⟩ := ih h
      exact ⟨_,second,(List.append_assoc _ _ _).symm,.cut hc n hfirst,hsecond⟩

theorem Torn.eq_of_ascii (h : Torn text read) (htext : ∀ c ∈ text, c.toNat < 0x80) : read = text := by
  induction h with
  | nil => rfl
  | whole c _ ih => rw [ih fun d hd => htext d (List.mem_cons_of_mem c hd)]
  | @cut c hc n _ _ _ ih => exact absurd (htext c List.mem_cons_self) (not_lt.mpr hc)

theorem Torn.mem (h : Torn text read) {c : Char} (hc : c ∈ read) : c ∈ text ∨ c = '\uFFFD' := by
  induction h with
  | nil => exact Or.inl hc
  | whole d _ ih =>
    rcases List.mem_cons.mp hc with rfl | hc
    · exact Or.inl List.mem_cons_self
    · exact (ih hc).imp_left (List.mem_cons_of_mem d)
  | cut hd n _ ih =>
    rcases List.mem_append.mp hc with hc | hc
    · exact Or.inr (List.eq_of_mem_replicate hc)
    · exact (ih hc).imp_left (List.mem_cons_of_mem _)

end Reading
end StructureAi.Foundation
