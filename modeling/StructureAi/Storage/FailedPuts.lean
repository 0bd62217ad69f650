import StructureAi.Storage.Local

/-! # Puts that fail

A put writes over what is stored, so a put that fails has changed it once an attempt came far enough. What is
left is what the last attempt that opened a file left there.
-/
namespace StructureAi.Storage
open StructureAi.Foundation
variable {textLength : MetaFile → ℕ} {input : PutInput} {attempts : ℕ → Attempt} {files : Files}

section Attempts

/-- The body that an attempt gets: a stream has a reader once an attempt came past the directory. -/
def bodyAt (body : Body) (attempts : ℕ → Attempt) : ℕ → Body
  | 0 => body
  | index + 1 => if (attempts index).mkdir = none then (bodyAt body attempts index).taken else bodyAt body attempts index

def writesData (body : Body) (attempts : ℕ → Attempt) (index : ℕ) : Prop :=
  (attempts index).mkdir = none ∧ (bodyAt body attempts index).failure = none ∧ (attempts index).data.failure = none

instance (body : Body) (attempts : ℕ → Attempt) (index : ℕ) : Decidable (writesData body attempts index) := by
  unfold writesData
  infer_instance

/-- What an attempt leaves in the data file, if it opens it. -/
def dataLeft (body : Body) (attempts : ℕ → Attempt) (index : ℕ) : Option (List UInt8) :=
  if (attempts index).mkdir = none ∧ (attempts index).data.opened = true then
    some (if writesData body attempts index then (bodyAt body attempts index).content
      else (bodyAt body attempts index).content.take (attempts index).data.reached)
  else none

def opensSidecar (body : Body) (attempts : ℕ → Attempt) (index : ℕ) : Prop :=
  writesData body attempts index ∧ (attempts index).sidecar.opened = true

instance (body : Body) (attempts : ℕ → Attempt) (index : ℕ) : Decidable (opensSidecar body attempts index) := by
  unfold opensSidecar
  infer_instance

theorem opened_of_failure {w : FileWrite} (h : w.failure = none) : w.opened = true := by
  unfold FileWrite.failure at h
  split at h
  · assumption
  · cases h

theorem dataLeft_of_writesData {index : ℕ} (h : writesData input.body attempts index) :
    dataLeft input.body attempts index = some (bodyAt input.body attempts index).content := by
  unfold dataLeft
  rw [if_pos ⟨h.1,opened_of_failure h.2.2⟩,if_pos h]

theorem dataLeft_of_opensSidecar {index : ℕ} (h : opensSidecar input.body attempts index) :
    dataLeft input.body attempts index ≠ none := by
  rw [dataLeft_of_writesData h.1]
  exact Option.some_ne_none _

/-- What an attempt leaves in the sidecar, if it opens it. -/
def sidecarLeft (textLength : MetaFile → ℕ) (input : PutInput) (attempts : ℕ → Attempt) (index : ℕ) : Option Sidecar :=
  if opensSidecar input.body attempts index then
    (writeSidecar (attempts index).sidecar (metaFile input (attempts index) (bodyAt input.body attempts index).content.length)
      (textLength (metaFile input (attempts index) (bodyAt input.body attempts index).content.length)) none).2
  else none

theorem writeSidecar_left (w : FileWrite) (file : MetaFile) (length : ℕ) (sidecar : Option Sidecar) :
    (writeSidecar w file length sidecar).2 = (writeSidecar w file length none).2.or sidecar := by
  unfold writeSidecar
  split
  · rfl
  · split
    · rfl
    · rfl

theorem writeSidecar_none {w : FileWrite} (h : w.opened = false) (file : MetaFile) (length : ℕ) :
    (writeSidecar w file length none).2 = none := by
  unfold writeSidecar FileWrite.failure
  rw [h]
  rfl

theorem sidecarLeft_cases (textLength : MetaFile → ℕ) (input : PutInput) {attempts : ℕ → Attempt} {index : ℕ}
    (h : opensSidecar input.body attempts index) :
    ∃ written, sidecarLeft textLength input attempts index = some (.whole (metaFile input (attempts index) written)) ∨
      sidecarLeft textLength input attempts index = some .cut := by
  refine ⟨(bodyAt input.body attempts index).content.length,?_⟩
  unfold sidecarLeft writeSidecar
  rw [if_pos h]
  split
  · exact Or.inl rfl
  · rw [if_pos h.2]
    split
    · exact Or.inl rfl
    · exact Or.inr rfl

theorem attemptPut_state (input : PutInput) (attempts : ℕ → Attempt) (index : ℕ) (files : Files) :
    (attemptPut textLength input attempts index (bodyAt input.body attempts index,files)).2 =
      (bodyAt input.body attempts (index + 1),⟨(dataLeft input.body attempts index).or files.data,
        (sidecarLeft textLength input attempts index).or files.sidecar⟩) := by
  unfold attemptPut
  rw [bodyAt]
  cases hmkdir : (attempts index).mkdir with
  | some code =>
    have hdata : dataLeft input.body attempts index = none := if_neg fun h => by rw [hmkdir] at h; cases h.1
    have hopens : ¬ opensSidecar input.body attempts index := fun h => by rw [h.1.1] at hmkdir; cases hmkdir
    have hsidecar : sidecarLeft textLength input attempts index = none := if_neg hopens
    rw [hdata,hsidecar]
    rfl
  | none =>
    simp only [if_true]
    unfold writeData
    cases hfailure : (bodyAt input.body attempts index).failure.or (attempts index).data.failure with
    | some code =>
      have hnot : ¬ writesData input.body attempts index := by
        rintro ⟨-,hbody,hwrite⟩
        rw [hbody,hwrite] at hfailure
        cases hfailure
      have hsidecar : sidecarLeft textLength input attempts index = none := if_neg fun h => hnot h.1
      simp only [hsidecar,Option.none_or]
      unfold dataLeft
      rw [if_neg hnot]
      simp only [hmkdir,true_and]
      split
      · rfl
      · rfl
    | none =>
      obtain ⟨hbody,hwrite⟩ := Option.or_eq_none_iff.mp hfailure
      have hwrites : writesData input.body attempts index := ⟨hmkdir,hbody,hwrite⟩
      rw [dataLeft_of_writesData hwrites]
      simp only [Option.some_or]
      have hleft : sidecarLeft textLength input attempts index = (writeSidecar (attempts index).sidecar
          (metaFile input (attempts index) (bodyAt input.body attempts index).content.length)
          (textLength (metaFile input (attempts index) (bodyAt input.body attempts index).content.length)) none).2 := by
        unfold sidecarLeft
        by_cases hopened : (attempts index).sidecar.opened = true
        · rw [if_pos ⟨hwrites,hopened⟩]
        · rw [if_neg fun h => hopened h.2,writeSidecar_none (Bool.not_eq_true _ ▸ hopened)]
      rw [hleft]
      have hwritten := writeSidecar_left (attempts index).sidecar
        (metaFile input (attempts index) (bodyAt input.body attempts index).content.length)
        (textLength (metaFile input (attempts index) (bodyAt input.body attempts index).content.length)) files.sidecar
      rw [← hwritten]
      split
      · rename_i code sidecar heq
        rw [heq]
      · rename_i code sidecar heq
        rw [heq]

theorem afterAttempts_put (input : PutInput) (attempts : ℕ → Attempt) (files : Files) (n : ℕ) :
    afterAttempts (attemptPut textLength input attempts) n (input.body,files) = (bodyAt input.body attempts n,
      ⟨(lastWrite (dataLeft input.body attempts) n).or files.data,
        (lastWrite (sidecarLeft textLength input attempts) n).or files.sidecar⟩) := by
  induction n with
  | zero => rfl
  | succ n ih =>
    rw [afterAttempts,ih,attemptPut_state,lastWrite,lastWrite,Option.or_assoc,Option.or_assoc]

theorem attemptPut_unavailable (index : ℕ) (state : Body × Files) {e : StorageError}
    (h : (attemptPut textLength input attempts index state).1 = .error e) : e.isUnavailable = true := by
  unfold attemptPut at h
  split at h
  · obtain rfl := Except.error.inj h
    rfl
  · split at h
    · obtain rfl := Except.error.inj h
      rfl
    · simp only at h
      split at h
      · obtain rfl := Except.error.inj h
        rfl
      · cases h

theorem put_failed {e : StorageError} (hvalid : validContentType input.contentType = true)
    (h : (put textLength input attempts files).1 = .error e) : (put textLength input attempts files).2 =
      ⟨(lastWrite (dataLeft input.body attempts) 3).or files.data,
        (lastWrite (sidecarLeft textLength input attempts) 3).or files.sidecar⟩ := by
  unfold put at h ⊢
  rw [if_pos hvalid] at h ⊢
  have hfailed : ∃ e', (retrying StorageError.isUnavailable (attemptPut textLength input attempts) 2 0
      (input.body,files)).1 = .error e' := by
    simp only at h
    cases hresult : (retrying StorageError.isUnavailable (attemptPut textLength input attempts) 2 0 (input.body,files)).1 with
    | error e' => exact ⟨e',rfl⟩
    | ok file =>
      rw [hresult] at h
      cases h
  obtain ⟨e',hfailed⟩ := hfailed
  have hstate : (retrying StorageError.isUnavailable (attemptPut textLength input attempts) 2 0 (input.body,files)).2 =
      afterAttempts (attemptPut textLength input attempts) 3 (input.body,files) :=
    retrying_failed (fun index s e he => attemptPut_unavailable index s he) 2 0 hfailed
  rw [afterAttempts_put] at hstate
  exact congrArg Prod.snd hstate

end Attempts

/-- What was stored is still there, with its metadata, and what was not is not. -/
def Unchanged (before after : Except StorageError RetrievedObject) : Prop :=
  (∀ object, before = .ok object → after = .ok object) ∧
    ∀ key, before = .error (.objectNotFound key) → after = .error (.objectNotFound key)

/-- No attempt comes far enough to change what `get` finds. Where there is no sidecar the data does not matter, and
where there is no data the sidecar does not. -/
def Harmless (input : PutInput) (attempts : ℕ → Attempt) (files : Files) : Prop :=
  match files.sidecar,files.data with
  | none,_ => ∀ i < 3, ¬ opensSidecar input.body attempts i
  | some _,none => ∀ i < 3, dataLeft input.body attempts i = none
  | some (.whole _),some content => (∀ i < 3, ¬ opensSidecar input.body attempts i) ∧
      ∀ i < 3, ∀ left, dataLeft input.body attempts i = some left →
        (∀ j < 3, i < j → dataLeft input.body attempts j = none) → left = content
  | some .cut,some _ => True

section Unchanged
variable {e : StorageError}

theorem sidecarLeft_eq_none {index : ℕ} :
    sidecarLeft textLength input attempts index = none ↔ ¬ opensSidecar input.body attempts index := by
  constructor
  · intro h hopens
    obtain ⟨written,hleft | hleft⟩ := sidecarLeft_cases textLength input hopens
    · rw [hleft] at h
      cases h
    · rw [hleft] at h
      cases h
  · exact fun h => if_neg h

theorem lastSidecar_eq_none {t : MetaFile → ℕ} : lastWrite (sidecarLeft t input attempts) 3 = none ↔
    ∀ i < 3, ¬ opensSidecar input.body attempts i := by
  rw [lastWrite_eq_none]
  exact forall₂_congr fun i _ => sidecarLeft_eq_none

theorem get_notFound {key k : String} (h : get key files = .error (.objectNotFound k)) : files.sidecar = none ∨
    files.data = none := by
  unfold get at h
  split at h
  · exact Or.inl ‹_›
  · split at h
    · exact Or.inr ‹_›
    · split at h
      · cases h
      · cases h

theorem get_ok {key : String} {object : RetrievedObject} (h : get key files = .ok object) :
    ∃ file, files.sidecar = some (.whole file) ∧ files.data = some object.body ∧ object.object = toStored key file := by
  unfold get at h
  split at h
  · cases h
  · rename_i raw hsidecar
    split at h
    · cases h
    · rename_i content hdata
      split at h
      · cases h
      · rename_i file
        obtain rfl := Except.ok.inj h
        exact ⟨file,hsidecar,hdata,rfl⟩

theorem get_whole {key : String} {file : MetaFile} {content : List UInt8} : get key ⟨some content,some (.whole file)⟩ =
    .ok ⟨toStored key file,content⟩ := rfl

theorem get_without {key : String} (h : files.sidecar = none ∨ files.data = none) : get key files =
    .error (.objectNotFound key) := by
  unfold get
  split
  · rfl
  · rename_i raw hsidecar
    rcases h with h | h
    · rw [h] at hsidecar
      cases hsidecar
    · rw [h]

theorem failed_put_harmless (hvalid : validContentType input.contentType = true)
    (h : (put textLength input attempts files).1 = .error e)
    (hfresh : ∀ file, files.sidecar = some (.whole file) → ∀ i, (attempts i).etag ≠ file.etag) :
    Unchanged (get input.key files) (get input.key (put textLength input attempts files).2) ↔ Harmless input attempts files := by
  rw [put_failed hvalid h]
  obtain ⟨data,sidecar⟩ := files
  unfold Harmless Unchanged
  cases sidecar with
  | none =>
    have hbefore : get input.key ⟨data,none⟩ = .error (.objectNotFound input.key) := rfl
    dsimp only
    rw [hbefore,Option.or_none,← lastSidecar_eq_none (t := textLength)]
    constructor
    · rintro ⟨-,hmissing⟩
      by_contra hopened
      rcases get_notFound (hmissing input.key rfl) with hsidecar | hdata
      · exact hopened hsidecar
      · obtain ⟨raw,hraw⟩ := Option.ne_none_iff_exists'.mp hopened
        obtain ⟨i,hi,hleft,-⟩ := lastWrite_some hraw
        have hopens : opensSidecar input.body attempts i := by
          by_contra hnot
          rw [sidecarLeft_eq_none.mpr hnot] at hleft
          cases hleft
        have hnone := lastWrite_eq_none.mp (Option.or_eq_none_iff.mp hdata).1 i hi
        exact dataLeft_of_opensSidecar hopens hnone
    · intro hnone
      refine ⟨fun object h => (by cases h),fun key hkey => ?_⟩
      rw [get_without (Or.inl hnone)]
      exact hkey
  | some raw =>
    cases data with
    | none =>
      have hbefore : get input.key ⟨none,some raw⟩ = .error (.objectNotFound input.key) := rfl
      dsimp only
      rw [hbefore,Option.or_none,← lastWrite_eq_none]
      constructor
      · rintro ⟨-,hmissing⟩
        rcases get_notFound (hmissing input.key rfl) with hsidecar | hdata
        · cases hlast : lastWrite (sidecarLeft textLength input attempts) 3 with
          | none =>
            rw [hlast] at hsidecar
            cases hsidecar
          | some left =>
            rw [hlast] at hsidecar
            cases hsidecar
        · exact hdata
      · intro hnone
        refine ⟨fun object h => (by cases h),fun key hkey => ?_⟩
        rw [get_without (Or.inr hnone)]
        exact hkey
    | some content =>
      cases raw with
      | cut =>
        have hbefore : get input.key ⟨some content,some .cut⟩ = .error (unavailable "get" "error") := rfl
        dsimp only
        rw [hbefore]
        refine iff_of_true ⟨fun object h => (by cases h),fun key hkey => (by cases hkey)⟩ trivial
      | whole file =>
        dsimp only
        rw [get_whole]
        constructor
        · rintro ⟨hfound,-⟩
          obtain ⟨file',hsidecar,hdata,hobject⟩ := get_ok (hfound _ rfl)
          have hetag : file.etag = file'.etag := congrArg StoredObject.etag hobject
          have hnone : lastWrite (sidecarLeft textLength input attempts) 3 = none := by
            by_contra hopened
            obtain ⟨left,hleft⟩ := Option.ne_none_iff_exists'.mp hopened
            obtain ⟨i,hi,hwrite,-⟩ := lastWrite_some hleft
            rw [hleft] at hsidecar
            obtain rfl : left = .whole file' := Option.some.inj hsidecar
            have hopens : opensSidecar input.body attempts i := by
              by_contra hnot
              rw [sidecarLeft_eq_none.mpr hnot] at hwrite
              cases hwrite
            obtain ⟨written,hwhole | hcut⟩ := sidecarLeft_cases textLength input hopens
            · rw [hwhole] at hwrite
              have hsame := Sidecar.whole.inj (Option.some.inj hwrite)
              apply hfresh file rfl i
              rw [hetag,← hsame]
              rfl
            · rw [hcut] at hwrite
              cases hwrite
          refine ⟨lastSidecar_eq_none.mp hnone,?_⟩
          intro i hi left hleft hlater
          rw [lastWrite_of_last hi hleft hlater,Option.some_or] at hdata
          exact Option.some.inj hdata
        · rintro ⟨hsidecar,hdata⟩
          have hcontent : (lastWrite (dataLeft input.body attempts) 3).or (some content) = some content := by
            cases hlast : lastWrite (dataLeft input.body attempts) 3 with
            | none => rfl
            | some left =>
              obtain ⟨i,hi,hwrite,hlater⟩ := lastWrite_some hlast
              rw [hdata i hi left hwrite hlater]
              rfl
          rw [lastSidecar_eq_none.mpr hsidecar,hcontent,Option.none_or]
          exact ⟨fun object h => h,fun key h => h⟩

end Unchanged

/-- A put that fails leaves everything as it was just where no attempt of it came far enough; every put draws ids of its own. -/
theorem failed_put_iff {e : StorageError} (h : (put textLength input attempts files).1 = .error e)
    (hfresh : ∀ file, files.sidecar = some (.whole file) → ∀ i, (attempts i).etag ≠ file.etag) :
    Unchanged (get input.key files) (get input.key (put textLength input attempts files).2) ↔
      (validContentType input.contentType = true → Harmless input attempts files) := by
  cases hvalid : validContentType input.contentType with
  | false =>
    have hsame : (put textLength input attempts files).2 = files := by
      unfold put
      rw [hvalid]
      rfl
    rw [hsame]
    exact iff_of_true ⟨fun object h => h,fun key h => h⟩ fun h => by cases h
  | true => exact (failed_put_harmless hvalid h hfresh).trans ⟨fun hall _ => hall,fun hall => hall rfl⟩

section Runs

def storedNote : Files := ⟨some [1],some (.whole ⟨"text/plain",.attachment,"e0",1,0,none⟩)⟩

/-- The disk is full before the data file is opened. -/
def fullDisk (index : ℕ) : Attempt := ⟨none,⟨false,some "ENOSPC",0⟩,⟨false,none,0⟩,"e" ++ toString (index + 1),10⟩

/-- There is room for the data and for no other file. -/
def fullAfterData (index : ℕ) : Attempt := ⟨none,⟨true,none,0⟩,⟨false,some "ENOSPC",0⟩,"e" ++ toString (index + 1),10⟩

def replacement : PutInput := ⟨"notes/a",.bytes [2,3],"text/plain",none,none⟩

theorem etag_fresh (index : ℕ) : "e" ++ toString (index + 1) ≠ "e0" := by
  intro h
  have hdigits := congrArg String.toList h
  rw [String.toList_append] at hdigits
  have hzero : toString (index + 1) = toString 0 := String.toList_injective (List.cons.inj hdigits).2
  have hone : index + 1 = 0 := Nat.repr_injective hzero
  exact Nat.succ_ne_zero index hone

theorem failed_put_iff_fullDisk : (put (fun _ => 100) replacement fullDisk storedNote).1 = .error (unavailable "put" "ENOSPC") ∧
    (Unchanged (get replacement.key storedNote) (get replacement.key (put (fun _ => 100) replacement fullDisk storedNote).2) ↔
      (validContentType replacement.contentType = true → Harmless replacement fullDisk storedNote)) := by
  have hfailed : (put (fun _ => 100) replacement fullDisk storedNote).1 =
    .error (unavailable "put" "ENOSPC") := by decide +kernel
  refine ⟨hfailed,failed_put_iff hfailed ?_⟩
  intro file hfile i
  obtain rfl := Sidecar.whole.inj (Option.some.inj hfile)
  exact etag_fresh i

/-- The new bytes under the old description. -/
theorem data_without_sidecar : (put (fun _ => 100) replacement fullAfterData storedNote).1 =
    .error (unavailable "put" "ENOSPC") ∧
    get replacement.key storedNote = .ok ⟨⟨"notes/a","text/plain",1,"e0",0,.attachment,none⟩,[1]⟩ ∧
    get replacement.key (put (fun _ => 100) replacement fullAfterData storedNote).2 =
      .ok ⟨⟨"notes/a","text/plain",1,"e0",0,.attachment,none⟩,[2,3]⟩ := by
  refine ⟨by decide +kernel,rfl,by decide +kernel⟩

end Runs

end StructureAi.Storage
