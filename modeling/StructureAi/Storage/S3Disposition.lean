import StructureAi.Storage.S3Upload

/-! # How an S3 object may be served

The disposition and the metadata of an object share the names of its headers, and the last write of a name wins. A
reader sees the disposition of the caller exactly when the last entry of the metadata that takes its name says the same.
-/
namespace StructureAi.Storage.S3
open StructureAi.Foundation

section Serving
variable (toLowerCase : String → String)

/-- `baseContentType` -/
def baseContentType (contentType : String) : String :=
  toLowerCase (String.ofList (trim (contentType.toList.takeWhile (· ≠ ';'))))

def safeFilename (key : String) : String :=
  let cleaned := ((key.toList.splitOn '/').getLastD []).filter fun c => c.isAlphanum || c = '.' || c = '_' || c = '-'
  if cleaned.length > 0 ∧ cleaned ≠ ['.'] ∧ cleaned ≠ ['.','.'] then String.ofList cleaned else "download"

/-- An object that is rendered where it is served. -/
def isInline (inlineAllowlist : List String) (contentType disposition : String) : Bool :=
  disposition = "inline-if-isolated" && baseContentType toLowerCase contentType ∈ inlineAllowlist

def servingHeaders (inlineAllowlist : List String) (object : StoredObject) : Headers :=
  [("content-type",object.contentType),
    ("content-disposition",if isInline toLowerCase inlineAllowlist object.contentType object.disposition then "inline"
      else "attachment; filename=\"" ++ safeFilename object.key ++ "\""),
    ("x-content-type-options","nosniff"),
    ("cache-control","private, max-age=0, must-revalidate")]

end Serving

section Reading
variable (toLowerCase : String → String) (inlineAllowlist : List String)

/-- What `get` and `head` see of an object, by the headers of the reply. -/
def get (key : String) (response : Response) (size : ℕ) : Except Failure (StoredObject × Headers) :=
  if response.status = 404 then .error (.objectNotFound key)
  else if response.status ≠ 200 then .error (failure "get" response.status key)
  else
    let object := fromHeaders key response.headers size
    .ok (object,servingHeaders toLowerCase inlineAllowlist object)

def head (key : String) (response : Response) (size : ℕ) : Except Failure StoredObject :=
  if response.status = 404 then .error (.objectNotFound key)
  else if response.status ≠ 200 then .error (failure "head" response.status key)
  else .ok (fromHeaders key response.headers size)

end Reading

/-! ### What a put leaves to be read -/

def Request.objectHeaders : Request → Option Headers
  | .put headers _ | .initiate headers => some headers
  | _ => none

/-- The type and the metadata come back as they were sent. -/
def Returned (sent returned : Headers) : Prop :=
  ∀ name, name = "content-type" ∨ metaPrefix.toList <+: name.toList → returned.lookup name = sent.lookup name

/-- What is put is read with the disposition that the caller gave, and rendered if that and the policy say so. -/
def DispositionKept (toLowerCase : String → String) (input : PutInput) : Prop :=
  ∀ (body : Body) (partSize : ℕ+) (reply : ℕ → Reply) (stored : StoredObject),
    (put partSize toLowerCase reply {input with body}).1 = some (.ok stored) →
    ∀ request ∈ (put partSize toLowerCase reply {input with body}).2, ∀ sent, request.objectHeaders = some sent →
    ∀ (response : Response) (size : ℕ) (inlineAllowlist : List String), response.status = 200 → Returned sent response.headers →
      ∃ object serving, get toLowerCase inlineAllowlist input.key response size = .ok (object,serving) ∧
        head input.key response size = .ok object ∧ object.disposition = input.declared ∧
        (serving.lookup "content-disposition" = some "inline" ↔
          input.disposition = some .inlineIfIsolated ∧ baseContentType toLowerCase input.contentType ∈ inlineAllowlist)

section Names
variable (toLowerCase : String → String)

/-- What an entry of the metadata says in place of the disposition. -/
def dispositionEntry (entry : String × String) : Option String :=
  if metadataHeaderName toLowerCase entry.1 = some "disposition" then some (String.ofList (entry.2.toList.take 1024)) else none

/-- The last entry that takes the name of the disposition. -/
def lastDisposition : List (String × String) → Option String
  | [] => none
  | entry :: entries => (lastDisposition entries).or (dispositionEntry toLowerCase entry)

variable {toLowerCase} {input : PutInput} {headers : Headers}

theorem metaPrefix_inj {name : String} : metaPrefix ++ name = "x-amz-meta-disposition" ↔ name = "disposition" := by
  rw [show "x-amz-meta-disposition" = metaPrefix ++ "disposition" from rfl,String.append_right_inj]

theorem lookup_setMetadata (entry : String × String) : (setMetadata toLowerCase headers entry).lookup "x-amz-meta-disposition" =
    (dispositionEntry toLowerCase entry).or (headers.lookup "x-amz-meta-disposition") := by
  rw [setMetadata,dispositionEntry]
  cases metadataHeaderName toLowerCase entry.1 with
  | none => rfl
  | some name =>
    dsimp only
    rw [lookup_put]
    by_cases hname : name = "disposition"
    · rw [if_pos (metaPrefix_inj.mpr hname).symm,if_pos (congrArg some hname)]
      rfl
    · rw [if_neg fun h => hname (metaPrefix_inj.mp h.symm),if_neg fun h => hname (Option.some.inj h)]
      rfl

theorem lookup_setMetadata_contentType (entry : String × String) :
    (setMetadata toLowerCase headers entry).lookup "content-type" = headers.lookup "content-type" := by
  rw [setMetadata]
  cases metadataHeaderName toLowerCase entry.1 with
  | none => rfl
  | some name =>
    refine lookup_put_of_ne fun h => ?_
    have hchars := congrArg String.toList h
    rw [String.toList_append] at hchars
    cases hchars

theorem foldl_setMetadata (headers : Headers) (entries : List (String × String)) :
    (entries.foldl (setMetadata toLowerCase) headers).lookup "x-amz-meta-disposition" =
      (lastDisposition toLowerCase entries).or (headers.lookup "x-amz-meta-disposition") ∧
    (entries.foldl (setMetadata toLowerCase) headers).lookup "content-type" = headers.lookup "content-type" := by
  induction entries generalizing headers with
  | nil => exact ⟨rfl,rfl⟩
  | cons entry entries ih =>
    obtain ⟨hdisposition,htype⟩ := ih (setMetadata toLowerCase headers entry)
    rw [List.foldl_cons,hdisposition,htype,lookup_setMetadata,lookup_setMetadata_contentType,lastDisposition,Option.or_assoc]
    exact ⟨rfl,rfl⟩

theorem lookup_metaHeaders (input : PutInput) : (metaHeaders toLowerCase input).lookup "x-amz-meta-disposition" =
      some ((lastDisposition toLowerCase (input.metadata.getD [])).getD input.declared) ∧
    (metaHeaders toLowerCase input).lookup "content-type" = some input.contentType := by
  rw [metaHeaders,(foldl_setMetadata _ _).1,(foldl_setMetadata _ _).2]
  refine ⟨?_,rfl⟩
  cases lastDisposition toLowerCase (input.metadata.getD []) <;> rfl

theorem dispositionText_injective {d d' : Disposition} (h : dispositionText d = dispositionText d') : d = d' := by
  revert h
  cases d <;> cases d' <;> decide

/-- The object is made with the headers of the put, in one request or at the start of an upload. -/
theorem objectHeaders_of_put {partSize : ℕ+} {reply : ℕ → Reply} {stored : StoredObject}
    (hput : (put partSize toLowerCase reply input).1 = some (.ok stored)) :
    validContentType input.contentType = true ∧ ∀ request ∈ (put partSize toLowerCase reply input).2, ∀ sent,
      request.objectHeaders = some sent → sent = metaHeaders toLowerCase input := by
  rw [put] at hput ⊢
  split at hput
  next hvalid =>
    refine ⟨hvalid,?_⟩
    rw [if_pos hvalid]
    cases hbody : input.body with
    | bytes content =>
      intro request hrequest sent hsent
      obtain rfl := List.mem_singleton.mp hrequest
      exact (Option.some.inj hsent).symm
    | stream stream =>
      rw [hbody] at hput
      dsimp only at hput ⊢
      generalize hrun : putStream partSize reply input stream (metaHeaders toLowerCase input) = run at hput ⊢
      obtain ⟨result,requests⟩ := run
      obtain ⟨-,-,-,hdelivered⟩ := (putStream_cases hrun).1 stored hput
      rw [Delivered] at hdelivered
      split at hdelivered
      · rw [hdelivered]
        intro request hrequest sent hsent
        obtain rfl := List.mem_singleton.mp hrequest
        exact (Option.some.inj hsent).symm
      · obtain ⟨id,parts,-,-,hsentAll⟩ := hdelivered
        rw [hsentAll]
        intro request hrequest sent hsent
        obtain hrequest | hrequest := List.mem_append.mp hrequest
        · obtain rfl | hrequest := List.mem_cons.mp hrequest
          · exact (Option.some.inj hsent).symm
          · obtain ⟨i,hi,rfl⟩ := List.mem_mapIdx.mp hrequest
            cases hsent
        · obtain rfl := List.mem_singleton.mp hrequest
          cases hsent
  · cases hput

/-- The disposition is kept exactly if the metadata does not say another. -/
theorem dispositionKept_iff (toLowerCase : String → String) (input : PutInput) : DispositionKept toLowerCase input ↔
    (validContentType input.contentType = true →
      ∀ value ∈ lastDisposition toLowerCase (input.metadata.getD []), value = input.declared) := by
  constructor
  · intro hkept hvalid value hvalue
    have hput : (put 1 toLowerCase (fun _ => .ok ⟨200,[],.ok ""⟩) {input with body := .bytes []}) =
        (some (.ok (storedFromPut {input with body := .bytes []} [] 0)),[.put (metaHeaders toLowerCase input) []]) := by
      rw [put,if_pos hvalid]
      rfl
    obtain ⟨object,serving,hget,-,hdisposition,-⟩ := hkept (.bytes []) 1 (fun _ =>
      .ok ⟨200,[],.ok ""⟩) _ (congrArg Prod.fst hput)
      (.put (metaHeaders toLowerCase input) []) (by rw [hput]; exact List.mem_singleton_self _) _ rfl
      ⟨200,metaHeaders toLowerCase input,.ok ""⟩ 0 [] rfl (fun _ _ => rfl)
    obtain ⟨rfl,-⟩ := Prod.mk.inj (Except.ok.inj hget)
    rw [fromHeaders,(lookup_metaHeaders input).1,Option.mem_def.mp hvalue] at hdisposition
    exact hdisposition
  · intro hsame body partSize reply stored hput request hrequest sent hsent response size inlineAllowlist hstatus hreturned
    obtain ⟨hvalid,hheaders⟩ := objectHeaders_of_put hput
    obtain rfl := hheaders request hrequest sent hsent
    have hnamed : response.headers.lookup "x-amz-meta-disposition" =
        some ((lastDisposition toLowerCase (input.metadata.getD [])).getD input.declared) :=
      (hreturned _ (.inr (by decide))).trans (lookup_metaHeaders _).1
    have hdisposition : (fromHeaders input.key response.headers size).disposition = input.declared := by
      rw [fromHeaders,hnamed]
      cases hlast : lastDisposition toLowerCase (input.metadata.getD []) with
      | none => rfl
      | some value => exact hsame hvalid value hlast
    have htype : (fromHeaders input.key response.headers size).contentType = input.contentType := by
      have hsame : response.headers.lookup "content-type" = some input.contentType :=
        (hreturned _ (.inl rfl)).trans (lookup_metaHeaders _).2
      rw [fromHeaders,hsame]
      rfl
    refine ⟨fromHeaders input.key response.headers size,_,by rw [get,hstatus]; rfl,by rw [head,hstatus]; rfl,hdisposition,?_⟩
    have hserving : (servingHeaders toLowerCase inlineAllowlist
      (fromHeaders input.key response.headers size)).lookup "content-disposition" =
        some (if isInline toLowerCase inlineAllowlist input.contentType input.declared then "inline"
          else "attachment; filename=\"" ++ safeFilename input.key ++ "\"") := by
      rw [servingHeaders,htype,hdisposition]
      rfl
    have hattachment : "attachment; filename=\"" ++ safeFilename input.key ++ "\"" ≠ "inline" := by
      intro h
      have hchars := congrArg String.toList h
      rw [String.toList_append,String.toList_append] at hchars
      cases hchars
    have hinline : isInline toLowerCase inlineAllowlist input.contentType input.declared = true ↔
        input.disposition = some .inlineIfIsolated ∧ baseContentType toLowerCase input.contentType ∈ inlineAllowlist := by
      rw [isInline,Bool.and_eq_true,decide_eq_true_eq,decide_eq_true_eq,PutInput.declared]
      refine and_congr_left fun _ => ⟨fun h => ?_,fun h => by rw [h]; rfl⟩
      cases hd : input.disposition with
      | none =>
        rw [hd] at h
        cases (dispositionText_injective h : _ = Disposition.inlineIfIsolated)
      | some d =>
        rw [hd] at h
        exact congrArg some (dispositionText_injective h : d = .inlineIfIsolated)
    rw [hserving,← hinline]
    split
    next h => exact ⟨fun _ => h,fun _ => rfl⟩
    next h => exact ⟨fun h' => absurd (Option.some.inj h') hattachment,fun h' => absurd h' h⟩

/-- A text file with a metadata entry of its own is served inline. -/
def renderedUpload : PutInput := ⟨"notes.txt",.bytes [],"text/plain",none,some [("Disposition","inline-if-isolated")]⟩

def asciiLower (text : String) : String := String.ofList (text.toList.map Char.toLower)

theorem attachment_rendered : ¬ DispositionKept asciiLower renderedUpload ∧
    metaHeaders asciiLower renderedUpload = [("content-type","text/plain"),("x-amz-meta-disposition","inline-if-isolated")] ∧
    renderedUpload.declared = "attachment" ∧
    (servingHeaders asciiLower ["text/plain"] (fromHeaders "notes.txt" (metaHeaders asciiLower renderedUpload) 0)).lookup
      "content-disposition" = some "inline" := by
  refine ⟨fun hkept => ?_,by decide,rfl,by decide⟩
  obtain ⟨object,serving,hget,-,hdisposition,-⟩ := hkept (.bytes []) 1 (fun _ => .ok ⟨200,[],.ok ""⟩)
    (storedFromPut renderedUpload [] 0) rfl (.put (metaHeaders asciiLower renderedUpload) []) (by decide) _ rfl
    ⟨200,metaHeaders asciiLower renderedUpload,.ok ""⟩ 0 [] rfl (fun _ _ => rfl)
  obtain ⟨rfl,-⟩ := Prod.mk.inj (Except.ok.inj hget)
  revert hdisposition
  decide

end Names

end StructureAi.Storage.S3
