import StructureAi.Http.Static

/-! # The confinement of static serving

The file that is located is checked against the real root, the sibling that is sent in its place is
not; and a coding counts as accepted wherever the header names it.
-/
namespace StructureAi.Http
open StructureAi.Foundation

section Contract

/-- The parameter gives the member a weight of zero. -/
def isZeroWeight (parameter : List Char) : Bool :=
  match (lower (trim parameter)).splitOn '=' with
  | [name,value] => trim name = ['q'] && match trim value with
    | '0' :: [] => true
    | '0' :: '.' :: digits => digits.all fun c => c = '0'
    | _ => false
  | _ => false

def zeroWeight (token : List Char) : Bool := ((token.splitOn ';').drop 1).any isZeroWeight

/-- The header accepts the coding with a weight that is not zero: by its name, or as one that it does not name. -/
def Accepts (header : Option String) (encoding : Encoding) : Prop :=
  (∃ token ∈ tokens header, memberName token = encoding.name.toList ∧ zeroWeight token = false) ∨
    (∀ token ∈ tokens header, memberName token ≠ encoding.name.toList) ∧ ∃ token ∈ tokens header, memberName token = ['*'] ∧
      zeroWeight token = false

instance (header : Option String) (encoding : Encoding) : Decidable (Accepts header encoding) :=
  inferInstanceAs (Decidable (_ ∨ _))

variable (fs : FileSystem FileInfo) (cwd : Path) (options : StaticOptions) (rendering : Rendering) (request : StaticRequest)
    (path : String)

/-- The real path lies strictly inside the real root. -/
def StrictlyInside (rootPath file : Path) : Prop := ∃ real, fs.realpath file = .ok real ∧ rootPath <+: real ∧ real ≠ rootPath

/-- The segments of the requested path, or those of the fallback. -/
def Selecting (segments : List String) : Prop :=
  ((requestedPath options request path).bind decodeURIComponent).map segmentsOf = some segments ∨
    (options.spaFallback.bind decodeURIComponent).map segmentsOf = some segments

/-- What holds of a file that is sent. -/
structure Confined (rootPath : Path) (file : Path) (headers : List (String × String)) : Prop where
  inside : StrictlyInside fs rootPath file
  selected : ∃ segments, Selecting options request path segments ∧ (∀ segment ∈ segments, segment.toList.head? ≠ some '.') ∧
    ∃ located, locate fs rootPath segments = .ok (some located) ∧
      (file = located.file ∨ ∃ encoding : Encoding, file = withSuffix located.file encoding.suffix)
  accepted : ∀ encoding : Encoding, ("content-encoding",encoding.name) ∈ headers → Accepts request.acceptEncoding encoding

/-- Whatever is sent for the request is confined to the real root. -/
def ServesConfined : Prop :=
  ∀ rootPath file headers, fs.realpath (resolve cwd options.directory) = .ok rootPath →
    staticResponse fs cwd options rendering request path = some (.file file headers) →
      Confined fs options request path rootPath file headers

/-- The root is no regular file, and a sibling that is to be sent is no link out of the root and of a coding that is
not refused. -/
structure Sound (rootPath : Path) (variant : Variant) : Prop where
  root : ∀ info, fs.entry rootPath ≠ some (.file info)
  sibling : variant.encoding ≠ none → ∀ target, fs.entry variant.file = some (.link target) →
    StrictlyInside fs rootPath variant.file
  weight : ∀ encoding, variant.encoding = some encoding → ∃ token ∈ tokens request.acceptEncoding,
    memberName token = encoding.name.toList ∧ zeroWeight token = false

/-- Of the file that the request leads to and the variant of it that is picked, unless the client has it. -/
def RequestSound : Prop :=
  ∀ rootPath segments located variant, fs.realpath (resolve cwd options.directory) = .ok rootPath →
    (requestedPath options request path).bind safeSegments = some segments →
      locateRequested fs options rootPath request segments = .ok (some located) →
        pickVariant fs located request.acceptEncoding = .ok (some variant) →
          etagMatches request.ifNoneMatch (weakEtag variant) = false → Sound fs request rootPath variant

end Contract

section Files
variable {fs : FileSystem FileInfo} {path rootPath : Path} {segments : List String} {located : Located} {variant : Variant}
  {header : Option String}

theorem unlessMissing_ok {A : Type} {r : Except FsError A} {a : A} (h : unlessMissing r = .ok (some a)) : r = .ok a := by
  unfold unlessMissing at h
  split at h
  next a' =>
    cases h
    rfl
  next e =>
    split at h <;> cases h

theorem fileStat_some {info : FileInfo} (h : fileStat fs path = .ok (some info)) :
    ∃ real, fs.realpath path = .ok real ∧ fs.entry real = some (.file info) := by
  obtain ⟨r,hstat,h⟩ := exists_of_bind_ok h
  obtain rfl : r = some (some (.file info)) := by
    split at h
    next info' =>
      obtain rfl : info' = info := Option.some.inj (Except.ok.inj h)
      rfl
    next => cases h
  have hstat := unlessMissing_ok hstat
  unfold FileSystem.stat at hstat
  cases hreal : fs.realpath path with
  | error e =>
    rw [hreal] at hstat
    cases hstat
  | ok real =>
    rw [hreal] at hstat
    exact ⟨real,rfl,Except.ok.inj hstat⟩

theorem isInside_cases (h : isInside rootPath path = true) : path = rootPath ∨ rootPath <+: path := by
  simp only [isInside,Bool.or_eq_true,decide_eq_true_eq,Bool.and_eq_true,List.isPrefixOf_iff_prefix] at h
  exact h.imp_right And.right

theorem locate_some (h : locate fs rootPath segments = .ok (some located)) :
    (∃ info, fs.entry located.file = some (.file info)) ∧ (located.file = rootPath ∨ rootPath <+: located.file) := by
  unfold locate at h
  dsimp only at h
  split at h
  next => cases h
  next =>
    obtain ⟨directory,-,h⟩ := exists_of_bind_ok h
    obtain ⟨info,hinfo,h⟩ := exists_of_bind_ok h
    cases info with
    | none => cases h
    | some info =>
      obtain ⟨real,hreal,h⟩ := exists_of_bind_ok h
      cases real with
      | none => cases h
      | some real =>
        obtain ⟨real',hreal',hfile⟩ := fileStat_some hinfo
        obtain rfl : real' = real := Except.ok.inj (hreal'.symm.trans (unlessMissing_ok hreal))
        dsimp only at h
        split at h
        next => cases h
        next hinside =>
          obtain rfl := Option.some.inj (Except.ok.inj h)
          exact ⟨⟨info,hfile⟩,isInside_cases (by simpa using hinside)⟩

theorem pickEncoded_some {encodings : List Encoding} (h : pickEncoded fs located header encodings = .ok (some variant)) :
    ∃ encoding : Encoding, variant.encoding = some encoding ∧ variant.file = withSuffix located.file encoding.suffix ∧
      acceptsEncoding header encoding = true ∧ fileStat fs variant.file = .ok (some variant.info) := by
  induction encodings with
  | nil => cases h
  | cons encoding rest ih =>
    rw [pickEncoded] at h
    split at h
    next => exact ih h
    next haccepts =>
      obtain ⟨info,hinfo,h⟩ := exists_of_bind_ok h
      cases info with
      | none => exact ih h
      | some info =>
        obtain rfl := Option.some.inj (Except.ok.inj h)
        exact ⟨encoding,rfl,rfl,by simpa using haccepts,hinfo⟩

theorem pickVariant_some (h : pickVariant fs located header = .ok (some variant)) :
    (variant.file = located.file ∧ variant.encoding = none) ∨
      ∃ encoding : Encoding, variant.encoding = some encoding ∧ variant.file = withSuffix located.file encoding.suffix ∧
        acceptsEncoding header encoding = true ∧ fileStat fs variant.file = .ok (some variant.info) := by
  obtain ⟨encoded,hencoded,h⟩ := exists_of_bind_ok h
  cases encoded with
  | some encoded =>
    obtain rfl := Option.some.inj (Except.ok.inj h)
    exact Or.inr (pickEncoded_some hencoded)
  | none =>
    obtain ⟨info,-,h⟩ := exists_of_bind_ok h
    obtain ⟨info',-,rfl⟩ := Option.map_eq_some_iff.mp (Except.ok.inj h)
    exact Or.inl ⟨rfl,rfl⟩

theorem locateRequested_some {options : StaticOptions} {request : StaticRequest}
    (h : locateRequested fs options rootPath request segments = .ok (some located)) :
    locate fs rootPath segments = .ok (some located) ∨
      ∃ fallback, options.spaFallback.bind safeSegments = some fallback ∧ locate fs rootPath fallback = .ok (some located) := by
  obtain ⟨found,hfound,h⟩ := exists_of_bind_ok h
  cases found with
  | some found =>
    obtain rfl := Option.some.inj (Except.ok.inj h)
    exact Or.inl hfound
  | none =>
    dsimp only at h
    split at h
    next => cases h
    next fallback hfallback =>
      split at h
      · exact Or.inr ⟨fallback,hfallback,h⟩
      · cases h

theorem safeSegments_some {encoded : String} (h : safeSegments encoded = some segments) :
    (decodeURIComponent encoded).map segmentsOf = some segments ∧ ∀ segment ∈ segments, segment.toList.head? ≠ some '.' := by
  obtain ⟨decoded,hdecoded,h⟩ := Option.bind_eq_some_iff.mp h
  split at h
  next => cases h
  next =>
    split at h
    next => cases h
    next hsafe =>
      obtain rfl := Option.some.inj h
      refine ⟨by rw [hdecoded]; rfl,?_⟩
      intro segment hsegment hdot
      apply hsafe
      rw [List.any_eq_true]
      exact ⟨segment,hsegment,by simp [unsafeSegment,hdot]⟩

theorem withSuffix_concat (path : Path) (name suffix : String) : withSuffix (path ++ [name]) suffix = path ++
    [name ++ suffix] := by
  rw [withSuffix,List.getLast?_concat,List.dropLast_concat]

theorem exists_of_file {info : FileInfo} (h : fs.entry path = some (.file info)) : ∃ parent name, path = parent ++ [name] := by
  cases path using List.reverseRecOn with
  | nil =>
    rw [fs.root] at h
    cases h
  | append_singleton parent name => exact ⟨parent,name,rfl⟩

theorem ne_dots (name : String) (encoding : Encoding) :
    name ++ encoding.suffix ≠ "" ∧ name ++ encoding.suffix ≠ "." ∧ name ++ encoding.suffix ≠ ".." := by
  have hsuffix : encoding.suffix.length = 3 := by cases encoding <;> rfl
  have hlen : 3 ≤ (name ++ encoding.suffix).length := by
    rw [String.length_append,hsuffix]
    omega
  have hshort : ∀ text : String, text.length < 3 → name ++ encoding.suffix ≠ text := by
    rintro text hlt rfl
    omega
  exact ⟨hshort "" (by decide),hshort "." (by decide),hshort ".." (by decide)⟩

theorem sibling_inside {encoding : Encoding} {info : FileInfo} (hfile : ∃ info, fs.entry path = some (.file info))
    (hroot : rootPath <+: path)
    (hne : path ≠ rootPath) (hstat : fileStat fs (withSuffix path encoding.suffix) = .ok (some info))
    (hlink : ∀ target, fs.entry (withSuffix path encoding.suffix) = some (.link target) →
      StrictlyInside fs rootPath (withSuffix path encoding.suffix)) :
    StrictlyInside fs rootPath (withSuffix path encoding.suffix) := by
  obtain ⟨info',hfile⟩ := hfile
  obtain ⟨parent,name,rfl⟩ := exists_of_file hfile
  have hparent := fs.parent _ _ _ hfile
  rw [withSuffix_concat] at hstat hlink ⊢
  obtain ⟨real,hreal,-⟩ := fileStat_some hstat
  obtain ⟨e,hentry⟩ := FileSystem.entry_of_realpath hparent (ne_dots name encoding) hreal
  by_cases hislink : ∃ target, e = .link target
  · obtain ⟨target,rfl⟩ := hislink
    exact hlink target hentry
  · have hisreal : fs.IsReal (parent ++ [name ++ encoding.suffix]) := ⟨e,hentry,fun target ht => hislink ⟨target,ht⟩⟩
    have hprefix : rootPath <+: parent := (List.prefix_concat_iff.mp hroot).resolve_left (Ne.symm hne)
    refine ⟨_,FileSystem.realpath_of_isReal hisreal,List.IsPrefix.trans hprefix (List.prefix_append ..),?_⟩
    rintro rfl
    have hlength := hprefix.length_le
    rw [List.length_append,List.length_singleton] at hlength
    omega

theorem StrictlyInside.directory {file : Path} (h : StrictlyInside fs rootPath file) : fs.entry rootPath = some .directory := by
  obtain ⟨real,hreal,⟨rest,rfl⟩,hne⟩ := h
  obtain ⟨e,hentry,-⟩ := FileSystem.realpath_isReal hreal
  refine FileSystem.directory_of_append hentry ?_
  rintro rfl
  exact hne (List.append_nil _)

theorem acceptsEncoding_iff {encoding : Encoding} :
    acceptsEncoding header encoding = true ↔ ∃ token ∈ tokens header, memberName token = encoding.name.toList := by
  simp only [acceptsEncoding,members,decide_eq_true_eq,List.mem_map]

end Files

section Serving
variable {fs : FileSystem FileInfo} {cwd : Path} {options : StaticOptions} {rendering : Rendering} {request : StaticRequest}
    {path : String}

theorem staticResponse_file {file : Path} {headers : List (String × String)}
    (h : staticResponse fs cwd options rendering request path = some (.file file headers)) :
    ∃ rootPath segments located variant, fs.realpath (resolve cwd options.directory) = .ok rootPath ∧
      (requestedPath options request path).bind safeSegments = some segments ∧
        locateRequested fs options rootPath request segments = .ok (some located) ∧
          pickVariant fs located request.acceptEncoding = .ok (some variant) ∧
            etagMatches request.ifNoneMatch (weakEtag variant) = false ∧
              respond options rendering request located variant = .file file headers := by
  unfold staticResponse at h
  split at h
  next => cases h
  next located variant hserve =>
    have hrespond := Option.some.inj h
    unfold serve at hserve
    split at hserve
    next => cases hserve
    next segments hsegments =>
      obtain ⟨root,hroot,hserve⟩ := exists_of_bind_ok hserve
      cases root with
      | none => cases hserve
      | some rootPath =>
        obtain ⟨found,hfound,hserve⟩ := exists_of_bind_ok hserve
        cases found with
        | none => cases hserve
        | some found =>
          obtain ⟨picked,hpicked,hserve⟩ := exists_of_bind_ok hserve
          obtain ⟨picked',rfl,hpair⟩ := Option.map_eq_some_iff.mp (Except.ok.inj hserve)
          obtain ⟨rfl,rfl⟩ := Prod.mk.inj hpair
          refine ⟨rootPath,segments,found,picked',unlessMissing_ok hroot,hsegments,hfound,hpicked,?_,hrespond⟩
          cases hetag : etagMatches request.ifNoneMatch (weakEtag picked') with
          | false => rfl
          | true =>
            rw [respond,if_pos hetag] at hrespond
            cases hrespond
  next => cases h

theorem staticResponse_of_located {rootPath : Path} {segments : List String} {located : Located} {variant : Variant}
    (hroot : fs.realpath (resolve cwd options.directory) = .ok rootPath)
    (hsegments : (requestedPath options request path).bind safeSegments = some segments)
    (hlocated : locateRequested fs options rootPath request segments = .ok (some located))
    (hvariant : pickVariant fs located request.acceptEncoding = .ok (some variant)) :
    staticResponse fs cwd options rendering request path = some (respond options rendering request located variant) := by
  have hserve : serve fs cwd options request path = .ok (some (located,variant)) := by
    unfold serve
    rw [hsegments,hroot]
    simp only [unlessMissing,bind,Except.bind,hlocated,hvariant]
    rfl
  rw [staticResponse,hserve]

theorem respond_file {located : Located} {variant : Variant}
    (hetag : etagMatches request.ifNoneMatch (weakEtag variant) = false) :
    ∃ headers, respond options rendering request located variant = .file variant.file headers ∧
      ∀ encoding : Encoding, ("content-encoding",encoding.name) ∈ headers ↔ variant.encoding = some encoding := by
  refine ⟨_,by rw [respond,if_neg (by simp [hetag])],?_⟩
  intro encoding
  cases hencoding : variant.encoding with
  | none => simp
  | some encoding' => cases encoding <;> cases encoding' <;> simp [Encoding.name]

/-- Static serving is confined just for the requests that are sound. -/
theorem serves_confined_iff (fs : FileSystem FileInfo) (cwd : Path) (options : StaticOptions) (rendering : Rendering)
    (request : StaticRequest)
    (path : String) : ServesConfined fs cwd options rendering request path ↔ RequestSound fs cwd options request path := by
  constructor
  · intro h rootPath segments located variant hroot hsegments hlocated hvariant hetag
    obtain ⟨headers,hrespond,hheaders⟩ := @respond_file options rendering _ located _ hetag
    have hsent := (@staticResponse_of_located _ _ _ rendering _ _ _ _ _ _ hroot hsegments hlocated hvariant).trans
      (congrArg some hrespond)
    obtain ⟨hinside,-,haccepted⟩ := h rootPath variant.file headers hroot hsent
    refine ⟨?_,fun _ _ _ => hinside,?_⟩
    · intro info hfile
      rw [hinside.directory] at hfile
      cases hfile
    · intro encoding hencoding
      rcases haccepted encoding ((hheaders encoding).mpr hencoding) with hnamed | ⟨hnone,-⟩
      · exact hnamed
      · rcases pickVariant_some hvariant with ⟨-,hno⟩ | ⟨encoding',hencoding',-,haccepts,-⟩
        · rw [hno] at hencoding
          cases hencoding
        · obtain rfl := Option.some.inj (hencoding'.symm.trans hencoding)
          obtain ⟨token,htoken,hname⟩ := acceptsEncoding_iff.mp haccepts
          exact absurd hname (hnone token htoken)
  · intro h rootPath file headers hroot hsent
    obtain ⟨rootPath',segments,located,variant,hroot',hsegments,hlocated,hvariant,hetag,hrespond⟩ := staticResponse_file hsent
    obtain rfl : rootPath' = rootPath := Except.ok.inj (hroot'.symm.trans hroot)
    obtain ⟨headers',hrespond',hheaders⟩ := @respond_file options rendering _ located _ hetag
    obtain ⟨rfl,rfl⟩ : variant.file = file ∧ headers' = headers := by
      rw [hrespond'] at hrespond
      injection hrespond with h1 h2
      exact ⟨h1,h2⟩
    have hsound := h rootPath' segments located variant hroot' hsegments hlocated hvariant hetag
    obtain ⟨selecting,hselecting,hdots,hlocate⟩ : ∃ selecting, Selecting options request path selecting ∧
        (∀ segment ∈ selecting, segment.toList.head? ≠ some '.') ∧ locate fs rootPath' selecting = .ok (some located) := by
      rcases locateRequested_some hlocated with hlocate | ⟨fallback,hfallback,hlocate⟩
      · obtain ⟨below,hbelow,hsafe⟩ := Option.bind_eq_some_iff.mp hsegments
        obtain ⟨hdecoded,hdots⟩ := safeSegments_some hsafe
        refine ⟨segments,Or.inl ?_,hdots,hlocate⟩
        rw [hbelow]
        exact hdecoded
      · obtain ⟨text,htext,hsafe⟩ := Option.bind_eq_some_iff.mp hfallback
        obtain ⟨hdecoded,hdots⟩ := safeSegments_some hsafe
        refine ⟨fallback,Or.inr ?_,hdots,hlocate⟩
        rw [htext]
        exact hdecoded
    obtain ⟨hfile,hinside⟩ := locate_some hlocate
    have hne : located.file ≠ rootPath' := by
      obtain ⟨info,hfile⟩ := hfile
      intro heq
      rw [heq] at hfile
      exact hsound.root info hfile
    have hinside := hinside.resolve_left hne
    have hpicked := pickVariant_some hvariant
    refine ⟨?_,⟨selecting,hselecting,hdots,located,hlocate,?_⟩,?_⟩
    · rcases hpicked with ⟨heq,-⟩ | ⟨encoding,hencoding,heq,-,hstat⟩
      · obtain ⟨info,hfile⟩ := hfile
        have hreal : fs.IsReal located.file := ⟨_,hfile,fun target ht => by cases ht⟩
        rw [heq]
        exact ⟨_,FileSystem.realpath_of_isReal hreal,hinside,hne⟩
      · have hlink := hsound.sibling (by rw [hencoding]; simp)
        rw [heq] at hstat hlink ⊢
        exact sibling_inside hfile hinside hne hstat hlink
    · rcases hpicked with ⟨heq,-⟩ | ⟨encoding,-,heq,-,-⟩
      · exact Or.inl heq
      · exact Or.inr ⟨encoding,heq⟩
    · intro encoding hencoding
      exact Or.inl (hsound.weight encoding ((hheaders encoding).mp hencoding))

def plainRendering : Rendering := ⟨fun _ => "text/javascript",fun _ => "Thu, 01 Jan 1970 00:00:00 GMT"⟩

/-- A build directory with a compressed sibling that is a link out of it, and a file beside it. -/
def linkedRoot : FileSystem FileInfo := FileSystem.ofTable
  [([],.directory),(["etc"],.directory),(["etc","secret"],.file ⟨9,0⟩),(["srv"],.directory),(["srv","app.js"],.file ⟨5,0⟩),
    (["srv","app.js.br"],.link ⟨true,["etc","secret"]⟩),(["srv","app.js.gz"],.file ⟨3,0⟩)] rfl rfl

/-- A file outside the root is sent, a coding that is refused is used, and a root that is a file is sent itself. -/
theorem serves_confined_iff_outside :
    ¬ ServesConfined linkedRoot [] {directory := "/srv"} plainRendering ⟨"GET",none,some "br",none⟩ "/app.js" ∧
      ¬ ServesConfined linkedRoot [] {directory := "/srv"} plainRendering ⟨"GET",none,some "gzip;q=0",none⟩ "/app.js" ∧
        ¬ ServesConfined linkedRoot [] {directory := "/etc/secret"} plainRendering ⟨"GET",none,none,none⟩ "/" := by
  refine ⟨?_,?_,?_⟩
  · intro h
    obtain ⟨real,hreal,hinside,-⟩ := (h ["srv"] ["srv","app.js.br"] _ rfl rfl).inside
    obtain rfl : ["etc","secret"] = real := Except.ok.inj hreal
    simp at hinside
  · intro h
    have haccepts := (h ["srv"] ["srv","app.js.gz"] _ rfl rfl).accepted .gzip (by decide)
    exact absurd haccepts (by decide)
  · intro h
    obtain ⟨real,hreal,-,hne⟩ := (h ["etc","secret"] ["etc","secret"] _ rfl rfl).inside
    exact hne (Except.ok.inj hreal).symm

end Serving
end StructureAi.Http
