import StructureAi.Storage.S3

/-! # Streams in parts

A put of a stream that succeeds has sent its bytes in order: in one request if they do not fill a part, else in parts
of the given size with a last one that is not longer. One that fails aborts the upload it has been given the id of.
-/
namespace StructureAi.Storage.S3

def Request.IsAbort : Request → Prop
  | .abort _ => True
  | _ => False

def Request.IsInitiate : Request → Prop
  | .initiate _ => True
  | _ => False

/-- One of the requests started an upload, and its reply gave the id. -/
def Known (key : String) (reply : ℕ → Reply) (sent : List Request) (id : String) : Prop :=
  ∃ i request, sent[i]? = some request ∧ request.IsInitiate ∧ uploadIdOf key (reply i) = .ok id

def Accepted (reply : ℕ → Reply) (sent : List Request) : Prop :=
  ∀ i < sent.length, ∃ response, reply i = .ok response ∧ response.status = 200

/-- The parts as they are sent, numbered from 1. -/
def partRequests (id : String) (headers : Headers) (parts : List (List UInt8)) : List Request :=
  parts.mapIdx fun i part => .part id (i + 1) headers part

/-- The tag of a part is the one that the reply to its request gives. The reply to the start comes before them all. -/
def partTag (reply : ℕ → Reply) (number : ℕ) : String :=
  ((reply number).toOption.bind fun response => response.headers.lookup "etag").getD ("part-" ++ toString number)

def tagsOf (reply : ℕ → Reply) (parts : List (List UInt8)) : List String := parts.mapIdx fun i _ => partTag reply (i + 1)

section Requests
variable {key : String} {reply : ℕ → Reply} {request : Request} {sent : List Request} {id : String}

theorem known_concat : Known key reply (sent ++ [request]) id ↔
    Known key reply sent id ∨ request.IsInitiate ∧ uploadIdOf key (reply sent.length) = .ok id := by
  constructor
  · rintro ⟨i,r,hr,hinitiate,hid⟩
    rw [List.getElem?_append] at hr
    split at hr
    · exact .inl ⟨i,r,hr,hinitiate,hid⟩
    next hi =>
      obtain ⟨hlt,hr⟩ := List.getElem?_eq_some_iff.mp hr
      rw [List.length_singleton] at hlt
      obtain rfl : i = sent.length := by omega
      rw [List.getElem_singleton] at hr
      subst hr
      exact .inr ⟨hinitiate,hid⟩
  · rintro (⟨i,r,hr,hinitiate,hid⟩ | ⟨hinitiate,hid⟩)
    · exact ⟨i,r,List.getElem?_append_left (List.getElem?_eq_some_iff.mp hr).1 ▸ hr,hinitiate,hid⟩
    · exact ⟨sent.length,request,List.getElem?_concat_length,hinitiate,hid⟩

theorem expectOk_ok {operation : String} {r : Reply} {response : Response} (h : expectOk key operation r = .ok response) :
    r = .ok response ∧ response.status = 200 := by
  cases r with
  | error e => cases h
  | ok answer =>
    rw [expectOk] at h
    split at h
    next hstatus =>
      cases h
      exact ⟨rfl,hstatus⟩
    · cases h

theorem uploadIdOf_ok {r : Reply} (h : uploadIdOf key r = .ok id) : ∃ response, r = .ok response ∧ response.status = 200 := by
  rw [uploadIdOf] at h
  cases hok : expectOk key "put-multipart-initiate" r with
  | error e =>
    rw [hok] at h
    cases h
  | ok response => exact ⟨response,expectOk_ok hok⟩

theorem Accepted.concat (h : Accepted reply sent) (hanswer : ∃ response, reply sent.length = .ok response ∧
    response.status = 200) :
    Accepted reply (sent ++ [request]) := by
  intro i hi
  rw [List.length_append,List.length_singleton] at hi
  obtain hlt | rfl := Nat.lt_succ_iff_lt_or_eq.mp hi
  · exact h i hlt
  · exact hanswer

theorem partRequests_concat {headers : Headers} {parts : List (List UInt8)} {part : List UInt8} :
    partRequests id headers (parts ++ [part]) = partRequests id headers parts ++ [.part id (parts.length + 1) headers part] := by
  rw [partRequests,List.mapIdx_append,List.mapIdx_singleton,Nat.zero_add]
  rfl

theorem length_partRequests {headers : Headers} {parts : List (List UInt8)} :
    (partRequests id headers parts).length = parts.length :=
  List.length_mapIdx

theorem length_tagsOf {parts : List (List UInt8)} : (tagsOf reply parts).length = parts.length :=
  List.length_mapIdx

theorem tagsOf_concat {parts : List (List UInt8)} {part : List UInt8} :
    tagsOf reply (parts ++ [part]) = tagsOf reply parts ++ [partTag reply (parts.length + 1)] := by
  rw [tagsOf,List.mapIdx_append,List.mapIdx_singleton,Nat.zero_add]
  rfl

end Requests

/-! ### What holds of every state of an upload -/

/-- The id of an upload is the one that a reply gave, and nothing is aborted yet. -/
structure Consistent (key : String) (reply : ℕ → Reply) (upload : Upload) : Prop where
  known : ∀ id, Known key reply upload.sent id ↔ upload.uploadId = some id
  going : ∀ request ∈ upload.sent, ¬ request.IsAbort

section States
variable {partSize : ℕ+} {key : String} {headers : Headers} {reply : ℕ → Reply} {upload upload' : Upload} {request : Request}

theorem Consistent.start (key : String) (reply : ℕ → Reply) : Consistent key reply ⟨none,[],[]⟩ where
  known id := by
    constructor
    · rintro ⟨i,request,h,-⟩
      cases h
    · exact nofun
  going := nofun

theorem Consistent.sending (h : Consistent key reply upload) (hinitiate : ¬ request.IsInitiate) (habort : ¬ request.IsAbort) :
    Consistent key reply (upload.sending request) where
  known id := by
    rw [Upload.sending,known_concat,or_iff_left fun hr => hinitiate hr.1]
    exact h.known id
  going r hr := by
    obtain hr | hr := List.mem_append.mp hr
    · exact h.going r hr
    · obtain rfl := List.mem_singleton.mp hr
      exact habort

theorem Consistent.ensureInitiated (h : Consistent key reply upload) {r : Except Thrown String}
    (hrun : ensureInitiated key headers reply upload = (r,upload')) :
    Consistent key reply upload' ∧ ∀ id, r = .ok id → upload'.uploadId = some id := by
  rw [S3.ensureInitiated] at hrun
  cases hid : upload.uploadId with
  | some id =>
    rw [hid] at hrun
    obtain ⟨rfl,rfl⟩ := Prod.mk.inj hrun
    exact ⟨h,fun _ hr => by cases hr; exact hid⟩
  | none =>
    rw [hid] at hrun
    dsimp only at hrun
    have hgoing : ∀ request ∈ upload.sent ++ [.initiate headers], ¬ request.IsAbort := by
      intro request hrequest
      obtain hr | hr := List.mem_append.mp hrequest
      · exact h.going request hr
      · obtain rfl := List.mem_singleton.mp hr
        exact id
    have hknown (id : String) : Known key reply (upload.sent ++ [.initiate headers]) id ↔ uploadIdOf key (upload.answer reply) =
      .ok id := by
      rw [known_concat,h.known,hid]
      exact ⟨fun hr => hr.elim nofun And.right,fun hr => .inr ⟨trivial,hr⟩⟩
    cases hanswer : uploadIdOf key (upload.answer reply) with
    | error e =>
      rw [hanswer] at hrun
      obtain ⟨rfl,rfl⟩ := Prod.mk.inj hrun
      refine ⟨⟨fun id => ?_,hgoing⟩,nofun⟩
      rw [Upload.sending,hknown,hanswer,hid]
      exact ⟨nofun,nofun⟩
    | ok given =>
      rw [hanswer] at hrun
      obtain ⟨rfl,rfl⟩ := Prod.mk.inj hrun
      refine ⟨⟨fun id => ?_,hgoing⟩,fun id hr => by cases hr; rfl⟩
      rw [Upload.sending,hknown,hanswer]
      exact ⟨fun hr => congrArg some (Except.ok.inj hr),fun hr => congrArg Except.ok (Option.some.inj hr)⟩

theorem Consistent.uploadPart (h : Consistent key reply upload) {part : List UInt8} {r : Except Thrown Unit}
    (hrun : uploadPart key headers reply part upload = (r,upload')) : Consistent key reply upload' := by
  rw [S3.uploadPart] at hrun
  cases hensure : S3.ensureInitiated key headers reply upload with
  | mk given after =>
    obtain ⟨hafter,-⟩ := h.ensureInitiated hensure
    rw [hensure] at hrun
    cases given with
    | error e =>
      obtain ⟨rfl,rfl⟩ := Prod.mk.inj hrun
      exact hafter
    | ok id =>
      have hsent : Consistent key reply (after.sending (.part id (after.partTags.length + 1) headers part)) :=
        hafter.sending not_false not_false
      dsimp only at hrun
      split at hrun
      · obtain ⟨rfl,rfl⟩ := Prod.mk.inj hrun
        exact hsent
      · obtain ⟨rfl,rfl⟩ := Prod.mk.inj hrun
        exact ⟨hsent.known,hsent.going⟩

theorem Consistent.uploadParts {buffered : List UInt8} (h : Consistent key reply upload) {r : Except Thrown (List UInt8)}
    (hrun : uploadParts partSize key headers reply buffered upload = (r,upload')) : Consistent key reply upload' := by
  induction buffered, upload using S3.uploadParts.induct partSize key headers reply with
  | case1 buffered upload hfull e after hpart =>
    rw [S3.uploadParts,if_pos hfull,hpart] at hrun
    obtain ⟨rfl,rfl⟩ := Prod.mk.inj hrun
    exact h.uploadPart hpart
  | case2 buffered upload hfull _ after hpart ih =>
    rw [S3.uploadParts,if_pos hfull,hpart] at hrun
    exact ih (h.uploadPart hpart) hrun
  | case3 buffered upload hshort =>
    rw [S3.uploadParts,if_neg hshort] at hrun
    obtain ⟨rfl,rfl⟩ := Prod.mk.inj hrun
    exact h

theorem Consistent.readChunks {chunks : List (List UInt8)} {buffered : List UInt8} {total : ℕ} (h : Consistent key reply upload)
    {r : Except Thrown (List UInt8 × ℕ)} (hrun : readChunks partSize key headers reply chunks buffered total upload =
      (r,upload')) :
    Consistent key reply upload' := by
  induction chunks generalizing buffered total upload with
  | nil =>
    obtain ⟨rfl,rfl⟩ := Prod.mk.inj hrun
    exact h
  | cons chunk chunks ih =>
    rw [S3.readChunks] at hrun
    cases hparts : S3.uploadParts partSize key headers reply (buffered ++ chunk) upload with
    | mk left after =>
      rw [hparts] at hrun
      cases left with
      | error e =>
        obtain ⟨rfl,rfl⟩ := Prod.mk.inj hrun
        exact h.uploadParts hparts
      | ok left => exact ih (h.uploadParts hparts) hrun

end States

/-! ### What is sent while nothing fails -/

/-- An upload with an id has sent its start and the parts so far. -/
structure Uploading (key : String) (headers : Headers) (reply : ℕ → Reply) (id : String) (parts : List (List UInt8))
    (upload : Upload) : Prop where
  uploadId : upload.uploadId = some id
  named : uploadIdOf key (reply 0) = .ok id
  tags : upload.partTags = tagsOf reply parts
  sent : upload.sent = .initiate headers :: partRequests id headers parts
  accepted : Accepted reply upload.sent

/-- The parts that are uploaded: none before there is an id. -/
inductive Progress (key : String) (headers : Headers) (reply : ℕ → Reply) : List (List UInt8) → Upload → Prop
  | nothing : Progress key headers reply [] ⟨none,[],[]⟩
  | uploading {id : String} {parts : List (List UInt8)} {upload : Upload} (hparts : parts ≠ [])
      (h : Uploading key headers reply id parts upload) : Progress key headers reply parts upload

section Successes
variable {partSize : ℕ+} {key : String} {headers : Headers} {reply : ℕ → Reply} {upload upload' : Upload}
    {parts : List (List UInt8)}

theorem Progress.ensureInitiated (h : Progress key headers reply parts upload) {id : String}
    (hrun : ensureInitiated key headers reply upload = (.ok id,upload')) : Uploading key headers reply id parts upload' := by
  cases h with
  | nothing =>
    rw [S3.ensureInitiated] at hrun
    dsimp only at hrun
    split at hrun
    · cases (Prod.mk.inj hrun).1
    next given hgiven =>
      obtain ⟨hid,rfl⟩ := Prod.mk.inj hrun
      cases hid
      have hstart : Accepted reply [] := nofun
      exact ⟨rfl,hgiven,rfl,rfl,hstart.concat (uploadIdOf_ok hgiven)⟩
  | uploading hparts h =>
    rw [S3.ensureInitiated,h.uploadId] at hrun
    obtain ⟨hid,rfl⟩ := Prod.mk.inj hrun
    cases hid
    exact h

theorem uploadPart_ok {part : List UInt8} (hrun : uploadPart key headers reply part upload = (.ok (),upload')) :
    ∃ id after, ensureInitiated key headers reply upload = (.ok id,after) ∧
      (Uploading key headers reply id parts after → Uploading key headers reply id (parts ++ [part]) upload') := by
  rw [S3.uploadPart] at hrun
  cases hensure : S3.ensureInitiated key headers reply upload with
  | mk given after =>
    rw [hensure] at hrun
    cases given with
    | error e => cases (Prod.mk.inj hrun).1
    | ok id =>
      refine ⟨id,after,rfl,fun hafter => ?_⟩
      dsimp only at hrun
      split at hrun
      · cases (Prod.mk.inj hrun).1
      next response hanswer =>
        obtain ⟨-,rfl⟩ := Prod.mk.inj hrun
        obtain ⟨hreply,hstatus⟩ := expectOk_ok hanswer
        have hcount : after.partTags.length = parts.length := by rw [hafter.tags,length_tagsOf]
        -- the start is request 0, so that part `n` is request `n`
        have hnumber : after.sent.length = parts.length + 1 := by
          rw [hafter.sent,List.length_cons,length_partRequests]
        refine ⟨hafter.uploadId,hafter.named,?_,?_,hafter.accepted.concat ⟨response,hreply,hstatus⟩⟩
        · rw [Upload.answer,hnumber] at hreply
          rw [tagsOf_concat,partTag,hreply,hcount]
          exact congrArg (· ++ _) hafter.tags
        · rw [partRequests_concat,← hcount,← List.cons_append,← hafter.sent]
          rfl

theorem Uploading.uploadPart {id : String} (h : Uploading key headers reply id parts upload) {part : List UInt8}
    (hrun : S3.uploadPart key headers reply part upload = (.ok (),upload')) :
      Uploading key headers reply id (parts ++ [part]) upload' := by
  obtain ⟨given,after,hensure,hupload⟩ := uploadPart_ok hrun
  rw [S3.ensureInitiated,h.uploadId] at hensure
  obtain ⟨hid,rfl⟩ := Prod.mk.inj hensure
  cases hid
  exact hupload h

theorem Progress.uploadPart (h : Progress key headers reply parts upload) {part : List UInt8}
    (hrun : S3.uploadPart key headers reply part upload = (.ok (),upload')) :
      Progress key headers reply (parts ++ [part]) upload' := by
  obtain ⟨id,after,hensure,hupload⟩ := uploadPart_ok hrun
  exact .uploading (List.append_ne_nil_of_right_ne_nil _ (List.cons_ne_nil _ _)) (hupload (h.ensureInitiated hensure))

theorem Progress.uploadParts {buffered rest : List UInt8} (h : Progress key headers reply parts upload)
    (hrun : uploadParts partSize key headers reply buffered upload = (.ok rest,upload')) :
    ∃ more, Progress key headers reply (parts ++ more) upload' ∧ more.flatten ++ rest = buffered ∧
      (∀ part ∈ more, part.length = partSize) ∧ rest.length < partSize := by
  induction buffered, upload using S3.uploadParts.induct partSize key headers reply generalizing parts with
  | case1 buffered upload hfull e after hpart =>
    rw [S3.uploadParts,if_pos hfull,hpart] at hrun
    cases (Prod.mk.inj hrun).1
  | case2 buffered upload hfull _ after hpart ih =>
    rw [S3.uploadParts,if_pos hfull,hpart] at hrun
    obtain ⟨more,hprogress,hflatten,hmore,hrest⟩ := ih (h.uploadPart hpart) hrun
    refine ⟨buffered.take partSize :: more,?_,?_,?_,hrest⟩
    · rwa [List.append_cons]
    · rw [List.flatten_cons,List.append_assoc,hflatten,List.take_append_drop]
    · exact List.forall_mem_cons.mpr ⟨List.length_take_of_le hfull,hmore⟩
  | case3 buffered upload hshort =>
    rw [S3.uploadParts,if_neg hshort] at hrun
    obtain ⟨hrest,rfl⟩ := Prod.mk.inj hrun
    cases hrest
    exact ⟨[],by rwa [List.append_nil],rfl,nofun,Nat.lt_of_not_le hshort⟩

theorem Progress.readChunks {chunks : List (List UInt8)} {buffered rest : List UInt8} {total read : ℕ}
    (h : Progress key headers reply parts upload) (hshort : buffered.length < partSize)
    (hrun : readChunks partSize key headers reply chunks buffered total upload = (.ok (rest,read),upload')) :
    ∃ more, Progress key headers reply (parts ++ more) upload' ∧ more.flatten ++ rest = buffered ++ chunks.flatten ∧
      (∀ part ∈ more, part.length = partSize) ∧ rest.length < partSize ∧ read = total + chunks.flatten.length := by
  induction chunks generalizing buffered total upload parts with
  | nil =>
    obtain ⟨hresult,rfl⟩ := Prod.mk.inj hrun
    cases hresult
    exact ⟨[],by rwa [List.append_nil],(List.append_nil _).symm,nofun,hshort,rfl⟩
  | cons chunk chunks ih =>
    rw [S3.readChunks] at hrun
    cases hparts : S3.uploadParts partSize key headers reply (buffered ++ chunk) upload with
    | mk left after =>
      rw [hparts] at hrun
      cases left with
      | error e => cases (Prod.mk.inj hrun).1
      | ok left =>
        obtain ⟨more,hprogress,hflatten,hmore,hleft⟩ := h.uploadParts hparts
        obtain ⟨later,hprogress,hflatten',hlater,hrest,rfl⟩ := ih hprogress hleft hrun
        refine ⟨more ++ later,?_,?_,?_,hrest,?_⟩
        · rwa [← List.append_assoc]
        · rw [List.flatten_append,List.append_assoc,hflatten',← List.append_assoc,hflatten,List.flatten_cons,List.append_assoc]
        · exact List.forall_mem_append.mpr ⟨hmore,hlater⟩
        · rw [List.flatten_cons,List.length_append,Nat.add_assoc]

end Successes

/-! ### A whole put -/

/-- The content in parts of one size, the last of which may be shorter; none is empty. -/
structure InParts (partSize : ℕ) (content : List UInt8) (parts : List (List UInt8)) : Prop where
  whole : parts.flatten = content
  full : ∀ part ∈ parts.dropLast, part.length = partSize
  bounds : ∀ part ∈ parts, 0 < part.length ∧ part.length ≤ partSize

/-- The requests of an upload that is completed. -/
def uploadRequests (id : String) (headers : Headers) (reply : ℕ → Reply) (parts : List (List UInt8)) : List Request :=
  .initiate headers :: partRequests id headers parts ++
    [.complete id (completeHeaders headers) (completeBody (tagsOf reply parts))]

/-- What a put that succeeds has sent: all of the content in one request, if it fills no part. -/
def Delivered (partSize : ℕ+) (key : String) (headers : Headers) (reply : ℕ → Reply) (content : List UInt8)
    (sent : List Request) : Prop :=
  if content.length < partSize then sent = [.put headers content]
  else ∃ id parts, uploadIdOf key (reply 0) = .ok id ∧ InParts partSize content parts ∧
    sent = uploadRequests id headers reply parts

section Whole
variable {partSize : ℕ+} {reply : ℕ → Reply} {input : PutInput} {headers : Headers} {upload upload' : Upload}

theorem InParts.of_full {parts : List (List UInt8)} {rest content : List UInt8} (hflatten : parts.flatten ++ rest = content)
    (hparts : ∀ part ∈ parts, part.length = partSize) (hrest : rest.length < partSize) :
    InParts partSize content (if rest.length > 0 then parts ++ [rest] else parts) := by
  have hbounds : ∀ part ∈ parts, 0 < part.length ∧ part.length ≤ partSize := by
    intro part hpart
    rw [hparts part hpart]
    exact ⟨partSize.pos,le_rfl⟩
  split
  next hleft =>
    refine ⟨?_,?_,List.forall_mem_append.mpr ⟨hbounds,List.forall_mem_singleton.mpr ⟨hleft,hrest.le⟩⟩⟩
    · rw [List.flatten_append,List.flatten_singleton,hflatten]
    · rwa [List.dropLast_concat]
  next hleft =>
    obtain rfl := List.eq_nil_of_length_eq_zero (Nat.eq_zero_of_not_pos hleft)
    rw [List.append_nil] at hflatten
    exact ⟨hflatten,fun part hpart => hparts part (List.mem_of_mem_dropLast hpart),hbounds⟩

theorem Consistent.finish {buffered : List UInt8} {total : ℕ} (h : Consistent input.key reply upload)
    {r : Except Thrown StoredObject} (hrun : finish reply input headers buffered total upload = (r,upload')) :
    Consistent input.key reply upload' := by
  rw [S3.finish] at hrun
  split at hrun
  · obtain ⟨-,rfl⟩ := Prod.mk.inj hrun
    exact h.sending not_false not_false
  · have hlast {r : Except Thrown Unit} {after : Upload} (hpart : (if buffered.length > 0 then
        S3.uploadPart input.key headers reply buffered upload else (.ok (),upload)) =
          (r,after)) : Consistent input.key reply after := by
      split at hpart
      · exact h.uploadPart hpart
      · obtain ⟨-,rfl⟩ := Prod.mk.inj hpart
        exact h
    split at hrun
    next hpart =>
      obtain ⟨-,rfl⟩ := Prod.mk.inj hrun
      exact hlast hpart
    next hpart =>
      obtain ⟨-,rfl⟩ := Prod.mk.inj hrun
      exact (hlast hpart).sending not_false not_false

theorem Progress.finish {parts : List (List UInt8)} {rest content : List UInt8}
    (h : Progress input.key headers reply parts upload)
    (hflatten : parts.flatten ++ rest = content) (hparts : ∀ part ∈ parts, part.length = partSize)
      (hrest : rest.length < partSize)
    {stored : StoredObject} (hrun : S3.finish reply input headers rest content.length upload = (.ok stored,upload')) :
    stored.size = content.length ∧ Accepted reply upload'.sent ∧
      Delivered partSize input.key headers reply content upload'.sent := by
  have hanswered {operation : String} {upload : Upload} {f : Response → StoredObject}
      (hresult : (expectOk input.key operation (upload.answer reply)).map f = .ok stored) :
      ∃ response, upload.answer reply = .ok response ∧ response.status = 200 ∧ f response = stored := by
    cases hanswer : expectOk input.key operation (upload.answer reply) with
    | error e =>
      rw [hanswer] at hresult
      cases hresult
    | ok response =>
      rw [hanswer] at hresult
      exact ⟨response,(expectOk_ok hanswer).1,(expectOk_ok hanswer).2,Except.ok.inj hresult⟩
  cases h with
  | nothing =>
    obtain rfl : rest = content := hflatten
    obtain ⟨hresult,rfl⟩ := Prod.mk.inj hrun
    obtain ⟨response,hreply,hstatus,rfl⟩ := hanswered hresult
    have hstart : Accepted reply [] := nofun
    refine ⟨rfl,hstart.concat ⟨response,hreply,hstatus⟩,?_⟩
    rw [Delivered,if_pos hrest]
    rfl
  | @uploading id _ _ hne h =>
    rw [S3.finish,h.uploadId] at hrun
    dsimp only at hrun
    split at hrun
    · cases (Prod.mk.inj hrun).1
    next after hlast =>
      obtain ⟨hresult,rfl⟩ := Prod.mk.inj hrun
      obtain ⟨response,hreply,hstatus,rfl⟩ := hanswered hresult
      have hafter : Uploading input.key headers reply id (if rest.length > 0 then parts ++ [rest] else parts) after := by
        split at hlast
        next hleft =>
          rw [if_pos hleft]
          exact h.uploadPart hlast
        next hleft =>
          obtain ⟨-,rfl⟩ := Prod.mk.inj hlast
          rwa [if_neg hleft]
      refine ⟨rfl,hafter.accepted.concat ⟨response,hreply,hstatus⟩,?_⟩
      have hlong : ¬ content.length < partSize := by
        obtain ⟨first,others,rfl⟩ := List.exists_cons_of_ne_nil hne
        have hfirst := hparts first List.mem_cons_self
        rw [← hflatten,List.flatten_cons,List.length_append,List.length_append,hfirst]
        omega
      rw [Delivered,if_neg hlong]
      refine ⟨id,_,h.named,InParts.of_full hflatten hparts hrest,?_⟩
      rw [Upload.sending,hafter.sent,hafter.tags]
      rfl

/-- What a put without an end, one that throws and one that succeeds leave of the upload. -/
theorem runUpload_cases {stream : ByteStream} {result : Option (Except Thrown StoredObject)}
    (hrun : runUpload partSize reply input stream headers = (result,upload)) :
    Consistent input.key reply upload ∧ (result = none → stream.ending = .pending) ∧
      ∀ stored, result = some (.ok stored) → stream.ending = .done ∧ stored.size = stream.chunks.flatten.length ∧
        Accepted reply upload.sent ∧ Delivered partSize input.key headers reply stream.chunks.flatten upload.sent := by
  rw [runUpload] at hrun
  cases hread : S3.readChunks partSize input.key headers reply stream.chunks [] 0 ⟨none,[],[]⟩ with
  | mk read after =>
    have hconsistent := (Consistent.start input.key reply).readChunks hread
    rw [hread] at hrun
    cases read with
    | error e =>
      obtain ⟨rfl,rfl⟩ := Prod.mk.inj hrun
      exact ⟨hconsistent,nofun,nofun⟩
    | ok read =>
      obtain ⟨rest,total⟩ := read
      dsimp only at hrun
      cases hending : stream.ending with
      | pending =>
        rw [hending] at hrun
        obtain ⟨rfl,rfl⟩ := Prod.mk.inj hrun
        exact ⟨hconsistent,fun _ => rfl,nofun⟩
      | failed thrown =>
        rw [hending] at hrun
        obtain ⟨rfl,rfl⟩ := Prod.mk.inj hrun
        exact ⟨hconsistent,nofun,nofun⟩
      | done =>
        rw [hending] at hrun
        obtain ⟨rfl,rfl⟩ := Prod.mk.inj hrun
        refine ⟨hconsistent.finish rfl,nofun,fun stored hstored => ?_⟩
        have hempty : ([] : List UInt8).length < partSize := partSize.pos
        obtain ⟨parts,hprogress,hflatten,hparts,hrest,rfl⟩ := Progress.nothing.readChunks hempty hread
        rw [Nat.zero_add] at hstored
        have hfinish : S3.finish reply input headers rest stream.chunks.flatten.length after =
            (.ok stored,(S3.finish reply input headers rest stream.chunks.flatten.length after).2) :=
          Prod.ext (Option.some.inj hstored) rfl
        obtain ⟨hsize,haccepted,hdelivered⟩ := hprogress.finish hflatten hparts hrest hfinish
        rw [Nat.zero_add]
        exact ⟨rfl,hsize,haccepted,hdelivered⟩

theorem Consistent.abortUpload (h : Consistent input.key reply upload) {id : String}
    (hknown : Known input.key reply (abortUpload upload).sent id) :
    ∃ before, (S3.abortUpload upload).sent = before ++ [.abort id] ∧ ∀ request ∈ before, ¬ request.IsAbort := by
  rw [S3.abortUpload] at hknown ⊢
  cases hid : upload.uploadId with
  | none =>
    rw [hid] at hknown
    cases ((h.known id).mp hknown).symm.trans hid
  | some given =>
    rw [hid] at hknown
    dsimp only at hknown ⊢
    rw [Upload.sending,known_concat,or_iff_left fun hr => hr.1,h.known,hid] at hknown
    obtain rfl := Option.some.inj hknown
    exact ⟨upload.sent,rfl,h.going⟩

theorem putStream_cases {stream : ByteStream} {result : Option (Except Failure StoredObject)} {sent : List Request}
    (hput : putStream partSize reply input stream headers = (result,sent)) :
    (∀ stored, result = some (.ok stored) → stream.ending = .done ∧ stored.size = stream.chunks.flatten.length ∧
      Accepted reply sent ∧ Delivered partSize input.key headers reply stream.chunks.flatten sent) ∧
    (∀ failure, result = some (.error failure) → ∀ id, Known input.key reply sent id →
      ∃ before, sent = before ++ [.abort id] ∧ ∀ request ∈ before, ¬ request.IsAbort) ∧
    (result = none → stream.ending = .pending ∧ ∀ request ∈ sent, ¬ request.IsAbort) := by
  rw [putStream] at hput
  split at hput
  next hlocked =>
    obtain ⟨rfl,rfl⟩ := Prod.mk.inj hput
    refine ⟨nofun,?_,nofun⟩
    rintro failure - id ⟨i,request,hrequest,-⟩
    cases hrequest
  · split at hput
    next upload hrun =>
      obtain ⟨rfl,rfl⟩ := Prod.mk.inj hput
      obtain ⟨hconsistent,hpending,-⟩ := runUpload_cases hrun
      exact ⟨nofun,nofun,fun _ => ⟨hpending rfl,hconsistent.going⟩⟩
    next stored upload hrun =>
      obtain ⟨rfl,rfl⟩ := Prod.mk.inj hput
      obtain ⟨-,-,hok⟩ := runUpload_cases hrun
      exact ⟨fun stored' hstored => hok stored' (by cases hstored; rfl),nofun,nofun⟩
    next thrown upload hrun =>
      obtain ⟨rfl,rfl⟩ := Prod.mk.inj hput
      obtain ⟨hconsistent,-,-⟩ := runUpload_cases hrun
      exact ⟨nofun,fun failure _ id hknown => hconsistent.abortUpload hknown,nofun⟩

end Whole

/-- What a put of a stream sends, whatever the stream and the replies. -/
theorem putStream_exact (partSize : ℕ+) (reply : ℕ → Reply) (input : PutInput) (stream : ByteStream) (headers : Headers) :
    (∀ stored, (putStream partSize reply input stream headers).1 = some (.ok stored) →
      stream.ending = .done ∧ stored.size = stream.chunks.flatten.length ∧
      Accepted reply (putStream partSize reply input stream headers).2 ∧
      Delivered partSize input.key headers reply stream.chunks.flatten (putStream partSize reply input stream headers).2) ∧
    (∀ failure, (putStream partSize reply input stream headers).1 = some (.error failure) →
      ∀ id, Known input.key reply (putStream partSize reply input stream headers).2 id →
      ∃ before, (putStream partSize reply input stream headers).2 = before ++ [.abort id] ∧
        ∀ request ∈ before, ¬ request.IsAbort) ∧
    ((putStream partSize reply input stream headers).1 = none →
      stream.ending = .pending ∧ ∀ request ∈ (putStream partSize reply input stream headers).2, ¬ request.IsAbort) :=
  putStream_cases rfl

/-! ### Seven bytes in parts of four -/

def report : PutInput := ⟨"report",.bytes [],"text/plain",none,none⟩

def reportStream : ByteStream := ⟨false,[[1,2,3],[],[4,5],[6,7]],.done⟩

/-- The upload has the id `u`, and the parts are answered with these tags. -/
def taggedReply (tags : List (Option String)) : ℕ → Reply
  | 0 => .ok ⟨200,[],.ok "<UploadId>u</UploadId>"⟩
  | n + 1 => match tags[n]? with
    | some none => .ok ⟨500,[],.ok ""⟩
    | some (some tag) => .ok ⟨200,[("etag",tag)],.ok ""⟩
    | none => .ok ⟨200,[],.ok ""⟩

/-- With both parts accepted the put is complete. A second part that is refused makes the upload aborted. -/
theorem putStream_exact_report :
    (∃ stored, (putStream 4 (taggedReply [some "a",some "b"]) report reportStream []).1 = some (.ok stored) ∧
      stored.size = 7 ∧
      Accepted (taggedReply [some "a",some "b"]) (putStream 4 (taggedReply [some "a",some "b"]) report reportStream []).2 ∧
      Delivered 4 "report" [] (taggedReply [some "a",some "b"]) [1,2,3,4,5,6,7]
        (putStream 4 (taggedReply [some "a",some "b"]) report reportStream []).2 ∧
      (putStream 4 (taggedReply [some "a",some "b"]) report reportStream []).2 =
        uploadRequests "u" [] (taggedReply [some "a",some "b"]) [[1,2,3,4],[5,6,7]]) ∧
    ∃ before, (putStream 4 (taggedReply [some "a",none]) report reportStream []).2 = before ++ [.abort "u"] ∧
      (∀ request ∈ before, ¬ request.IsAbort) ∧ partRequests "u" [] [[1,2,3,4],[5,6,7]] <:+ before := by
  have hdone : (putStream 4 (taggedReply [some "a",some "b"]) report reportStream []) =
      (some (.ok (storedFromPut report [] 7)),uploadRequests "u" [] (taggedReply [some "a",some "b"]) [[1,2,3,4],[5,6,7]]) := by
    decide +kernel
  have hrefused : (putStream 4 (taggedReply [some "a",none]) report reportStream []) =
      (some (.error (.unavailable "put-part" "s3-500")),
        .initiate [] :: partRequests "u" [] [[1,2,3,4],[5,6,7]] ++ [.abort "u"]) := by decide +kernel
  obtain ⟨hstored,-,-⟩ := putStream_exact 4 (taggedReply [some "a",some "b"]) report reportStream []
  obtain ⟨-,hsize,haccepted,hdelivered⟩ := hstored _ (congrArg Prod.fst hdone)
  obtain ⟨-,hfailed,-⟩ := putStream_exact 4 (taggedReply [some "a",none]) report reportStream []
  have hknown : Known "report" (taggedReply [some "a",none])
      (putStream 4 (taggedReply [some "a",none]) report reportStream []).2 "u" := by
    rw [hrefused]
    exact ⟨0,.initiate [],rfl,trivial,by decide +kernel⟩
  obtain ⟨before,hsent,hbefore⟩ := hfailed _ (congrArg Prod.fst hrefused) "u" hknown
  refine ⟨⟨_,congrArg Prod.fst hdone,hsize,haccepted,hdelivered,congrArg Prod.snd hdone⟩,before,hsent,hbefore,?_⟩
  rw [hrefused] at hsent
  rw [← List.append_cancel_right hsent]
  exact List.suffix_cons _ _

end StructureAi.Storage.S3
