import StructureAi.Foundation.Binary64
import StructureAi.Foundation.Markup
import StructureAi.Storage.S3

/-! # Listings

The driver asks for the objects of a bucket under a prefix and takes them from the text of one reply.
-/
namespace StructureAi.Storage.S3
open StructureAi.Foundation

section Names

def keyName : List Char := ['K','e','y']
def sizeName : List Char := ['S','i','z','e']
def etagName : List Char := ['E','T','a','g']
def lastModifiedName : List Char := ['L','a','s','t','M','o','d','i','f','i','e','d']
def storageClassName : List Char := ['S','t','o','r','a','g','e','C','l','a','s','s']
def contentsName : List Char := ['C','o','n','t','e','n','t','s']
def listName : List Char := ['L','i','s','t','B','u','c','k','e','t','R','e','s','u','l','t']

end Names

/-- `StoredObject`, with the size and the date as they are read. -/
structure ListedObject where
  key : List Char
  size : Option Decimal
  etag : Option (List Char)
  lastModified : Option (List Char)

section Driver
variable (keyPrefix : Option (List Char))

def fullPrefix (searched : List Char) : List Char :=
  match keyPrefix with
  | none => searched
  | some keyPrefix => keyPrefix ++ '/' :: searched

def strippedKey (keyRaw : List Char) : List Char :=
  match keyPrefix with
  | none => keyRaw
  | some keyPrefix => if (keyPrefix ++ ['/']).isPrefixOf keyRaw then keyRaw.drop (keyPrefix.length + 1) else keyRaw

/-- What a block says of an object. One without a key or a size is passed over. -/
def listedObject (block : List Char) : Option ListedObject :=
  match Markup.fieldIn keyName block,Markup.fieldIn sizeName block with
  | some keyRaw,some size => some ⟨strippedKey keyPrefix keyRaw,numberOf (String.ofList size),
      Markup.fieldIn etagName block,Markup.fieldIn lastModifiedName block⟩
  | _,_ => none

def list : Reply → Except Failure (List ListedObject)
  | .error _ => .error (.unavailable "get" "s3-network")
  | .ok response =>
    if response.status = 200 then
      match response.text with
      | .error _ => .error (.unavailable "list" "s3-body")
      | .ok xml => .ok ((Markup.blocksIn contentsName xml.toList).filterMap (listedObject keyPrefix))
    else .error (failure "list" response.status "")

end Driver

/-! ### The store -/

theorem toDigits_plain (n : ℕ) : '<' ∉ Nat.toDigits 10 n := by
  intro h
  have hdigit := isDigit_toDigits n '<' h
  cases hdigit

structure S3Object where
  key : List Char
  size : ℕ
  etag : List Char
  lastModified : List Char

/-- No two objects of a bucket have one key. -/
structure Bucket where
  objects : List S3Object
  distinct : (objects.map S3Object.key).Nodup

/-- How a store writes its replies: how many objects it names, how it writes a key, a tag and a date inside an element, and
what it says before the objects. -/
structure Store where
  maxKeys : ℕ
  maxKeys_le : maxKeys ≤ 1000
  keyText : List Char → List Char
  etagText : List Char → List Char
  dateText : List Char → List Char
  keyText_plain : ∀ key, '<' ∉ keyText key
  etagText_plain : ∀ etag, '<' ∉ etagText etag
  dateText_plain : ∀ date, '<' ∉ dateText date
  /-- Escapes are longer than what they stand for. -/
  keyText_length : ∀ key, keyText key ≠ key → key.length < (keyText key).length
  /-- `IsTruncated`, the continuation token and the rest. -/
  summary : Bool → List Markup.Field
  summary_other : ∀ truncated, ∀ f ∈ summary truncated, f.name ≠ contentsName

section Replies
variable (store : Store) (bucket : Bucket) (searched : List Char)

def matching : List S3Object := bucket.objects.filter fun object => searched.isPrefixOf object.key

def contents (object : S3Object) : List Markup.Field :=
  [⟨keyName,store.keyText object.key,by decide,store.keyText_plain _⟩,
    ⟨lastModifiedName,store.dateText object.lastModified,by decide,store.dateText_plain _⟩,
    ⟨etagName,store.etagText object.etag,by decide,store.etagText_plain _⟩,
    ⟨sizeName,Nat.toDigits 10 object.size,by decide,toDigits_plain object.size⟩,
    ⟨storageClassName,['S','T','A','N','D','A','R','D'],by decide,by decide⟩]

/-- The reply to `ListObjectsV2`. -/
def replyText : List Char :=
  Markup.openTag listName ++
    (Markup.elements (store.summary (decide (store.maxKeys < (matching bucket searched).length))) ++
    (((matching bucket searched).take store.maxKeys).flatMap fun object =>
      Markup.element contentsName (Markup.elements (contents store object))) ++
    Markup.closeTag listName)

end Replies

/-! ### What is read of a reply -/

section Reading
variable {store : Store} {bucket : Bucket} {keyPrefix : Option (List Char)} {searched : List Char} {object : S3Object}

variable (store keyPrefix) in
/-- An object as the driver reads it from the text of a store. -/
def readObject (object : S3Object) : ListedObject :=
  ⟨strippedKey keyPrefix (store.keyText object.key),some (.ofInt object.size),some (store.etagText object.etag),
    some (store.dateText object.lastModified)⟩

theorem fieldIn_block {name text : List Char} (hname : Markup.IsName name) (hne : name ≠ contentsName)
    (h : ((contents store object).find? fun f => f.name = name).map Markup.Field.text = some text) :
    Markup.fieldIn name (Markup.element contentsName (Markup.elements (contents store object))) = some text := by
  obtain ⟨-,hplain,-⟩ := hname.plain
  rw [Markup.element,List.append_assoc,Markup.fieldIn_tag hplain (by decide) (by decide) hne,
    Markup.fieldIn_elements hname,h]
  rfl

theorem listedObject_block : listedObject keyPrefix (Markup.element contentsName (Markup.elements (contents store object))) =
    some (readObject store keyPrefix object) := by
  generalize hblock : Markup.element contentsName (Markup.elements (contents store object)) = block
  have hkey : Markup.fieldIn keyName block = some (store.keyText object.key) :=
    hblock ▸ fieldIn_block (by decide) (by decide) rfl
  have hsize : Markup.fieldIn sizeName block = some (Nat.toDigits 10 object.size) :=
    hblock ▸ fieldIn_block (by decide) (by decide) rfl
  have hetag : Markup.fieldIn etagName block = some (store.etagText object.etag) :=
    hblock ▸ fieldIn_block (by decide) (by decide) rfl
  have hdate : Markup.fieldIn lastModifiedName block = some (store.dateText object.lastModified) :=
    hblock ▸ fieldIn_block (by decide) (by decide) rfl
  have hnumber := numberOf_integerChars object.size
  rw [integerChars,if_neg (by omega),Int.natAbs_natCast] at hnumber
  rw [listedObject,hkey,hsize,hetag,hdate]
  dsimp only
  rw [hnumber]
  rfl

theorem blocksIn_replyText : Markup.blocksIn contentsName (replyText store bucket searched) =
    ((matching bucket searched).take store.maxKeys).map fun object =>
      Markup.element contentsName (Markup.elements (contents store object)) := by
  have hcontents : Markup.IsName contentsName := by decide
  obtain ⟨-,hplain,hslash⟩ := hcontents.plain
  rw [replyText,Markup.blocksIn_skip (Markup.splitAtFirst_tag hplain (by decide) (by decide) (by decide)),
    List.append_assoc,Markup.blocksIn_skip]
  · induction (matching bucket searched).take store.maxKeys with
    | nil => exact Markup.blocksIn_none rfl
    | cons object objects ih =>
      rw [List.flatMap_cons,List.append_assoc,Markup.blocksIn_element hcontents,ih]
      · rfl
      · have hnames : ∀ name ∈ (contents store object).map Markup.Field.name, name ≠ contentsName := by
          change ∀ name ∈ [keyName,lastModifiedName,etagName,sizeName,storageClassName], name ≠ contentsName
          decide
        exact fun f hf => hnames f.name (List.mem_map_of_mem hf)
  · refine Markup.splitAtFirst_elements hplain _ fun f hf => ⟨fun h => store.summary_other _ f hf h.symm,fun h => ?_⟩
    exact hslash (h ▸ List.mem_cons_self)

theorem list_replyText (headers : Headers) :
    list keyPrefix (.ok ⟨200,headers,.ok (String.ofList (replyText store bucket (fullPrefix keyPrefix searched)))⟩) =
      .ok (((matching bucket (fullPrefix keyPrefix searched)).take store.maxKeys).map (readObject store keyPrefix)) := by
  rw [list]
  dsimp only
  rw [if_pos rfl,String.toList_ofList,blocksIn_replyText,List.filterMap_map]
  refine congrArg Except.ok ?_
  rw [← List.filterMap_eq_map]
  exact List.filterMap_congr fun object _ => listedObject_block

end Reading

/-! ### Completeness -/

def callerKey (keyPrefix : Option (List Char)) (key : List Char) : List Char := key.drop (fullPrefix keyPrefix []).length

abbrev Entry := List Char × Option Decimal × Option (List Char)

def ListedObject.entry (object : ListedObject) : Entry := (object.key,object.size,object.etag)

def S3Object.entry (keyPrefix : Option (List Char)) (object : S3Object) : Entry :=
  (callerKey keyPrefix object.key,some (.ofInt object.size),some object.etag)

/-- What is listed are the objects under the prefix, each once, with key, size and tag. -/
def ListsAll (store : Store) (bucket : Bucket) (keyPrefix : Option (List Char)) (searched : List Char) : Prop :=
  ∃ results, list keyPrefix (.ok ⟨200,[],.ok (String.ofList (replyText store bucket (fullPrefix keyPrefix searched)))⟩) =
    .ok results ∧
    (results.map ListedObject.entry).Perm ((matching bucket (fullPrefix keyPrefix searched)).map (S3Object.entry keyPrefix))

section Complete
variable {store : Store} {bucket : Bucket} {keyPrefix : Option (List Char)} {searched : List Char} {object : S3Object}

theorem mem_matching (h : object ∈ matching bucket (fullPrefix keyPrefix searched)) :
    object ∈ bucket.objects ∧ fullPrefix keyPrefix [] <+: object.key := by
  obtain ⟨hbucket,hkey⟩ := List.mem_filter.mp h
  refine ⟨hbucket,List.IsPrefix.trans ?_ (List.isPrefixOf_iff_prefix.mp hkey)⟩
  cases keyPrefix with
  | none => exact List.nil_prefix
  | some keyPrefix =>
    rw [fullPrefix,fullPrefix,show keyPrefix ++ '/' :: searched = keyPrefix ++ ['/'] ++ searched by rw [List.append_assoc]; rfl]
    exact List.prefix_append _ _

theorem strippedKey_eq {key : List Char} (h : fullPrefix keyPrefix [] <+: key) : strippedKey keyPrefix key =
    callerKey keyPrefix key := by
  cases keyPrefix with
  | none => rfl
  | some keyPrefix =>
    rw [strippedKey,callerKey,fullPrefix]
    rw [if_pos (show (keyPrefix ++ ['/']).isPrefixOf key = true from List.isPrefixOf_iff_prefix.mpr h),List.length_append,
      List.length_singleton]

theorem length_callerKey_lt {key keyRaw : List Char} (h : fullPrefix keyPrefix [] <+: key)
    (hlength : key.length < keyRaw.length) :
    (callerKey keyPrefix key).length < (strippedKey keyPrefix keyRaw).length := by
  have hle := h.length_le
  cases keyPrefix with
  | none => exact hlength
  | some keyPrefix =>
    rw [fullPrefix,List.length_append,List.length_singleton] at hle
    rw [strippedKey,callerKey,fullPrefix,List.length_drop,List.length_append,List.length_singleton]
    split
    · rw [List.length_drop]
      omega
    · omega

theorem ListsAll.length_le (h : ListsAll store bucket keyPrefix searched) :
    (matching bucket (fullPrefix keyPrefix searched)).length ≤ store.maxKeys := by
  obtain ⟨results,hresults,hperm⟩ := h
  rw [list_replyText] at hresults
  obtain rfl := Except.ok.inj hresults
  have hsame := hperm.length_eq
  rw [List.length_map,List.length_map,List.length_map,List.length_take] at hsame
  omega

/-- The list is complete exactly if one reply names all of the objects and writes their keys and tags as they are. -/
theorem listsAll_iff (store : Store) (bucket : Bucket) (keyPrefix : Option (List Char)) (searched : List Char) :
    ListsAll store bucket keyPrefix searched ↔ (matching bucket (fullPrefix keyPrefix searched)).length ≤ store.maxKeys ∧
      ∀ object ∈ matching bucket (fullPrefix keyPrefix searched),
        store.keyText object.key = object.key ∧ store.etagText object.etag = object.etag := by
  have hmem (object : S3Object) (hobject : object ∈ matching bucket (fullPrefix keyPrefix searched)) := mem_matching hobject
  constructor
  · intro hlists
    have hlength := hlists.length_le
    obtain ⟨results,hresults,hperm⟩ := hlists
    rw [list_replyText] at hresults
    obtain rfl := Except.ok.inj hresults
    generalize matching bucket (fullPrefix keyPrefix searched) = objects at hmem hlength hperm ⊢
    rw [List.map_map,List.take_of_length_le hlength] at hperm
    have hkeys : ∀ object ∈ objects, store.keyText object.key = object.key := by
      -- a key that is written in another way makes the listed keys longer in all
      by_contra hother
      push Not at hother
      obtain ⟨object,hobject,hne⟩ := hother
      have hsum := (hperm.map fun entry => entry.1.length).sum_nat
      rw [List.map_map,List.map_map] at hsum
      refine absurd hsum (Nat.ne_of_gt (List.sum_lt_sum _ _ (fun object hobject => ?_) ⟨object,hobject,?_⟩))
      · by_cases hsame : store.keyText object.key = object.key
        · change (callerKey keyPrefix object.key).length ≤ (strippedKey keyPrefix (store.keyText object.key)).length
          rw [hsame,strippedKey_eq (hmem object hobject).2]
        · exact (length_callerKey_lt (hmem object hobject).2 (store.keyText_length _ hsame)).le
      · exact length_callerKey_lt (hmem object hobject).2 (store.keyText_length _ hne)
    refine ⟨hlength,fun object hobject => ⟨hkeys object hobject,?_⟩⟩
    -- the listed entry of this key can only be that of this object
    have hlisted := hperm.mem_iff.mp (List.mem_map_of_mem hobject)
    obtain ⟨other,hother,heq⟩ := List.mem_map.mp hlisted
    obtain ⟨hkey,hrest⟩ := Prod.mk.inj heq
    have hsame : other.key = object.key := by
      change callerKey keyPrefix other.key = strippedKey keyPrefix (store.keyText object.key) at hkey
      rw [hkeys object hobject,strippedKey_eq (hmem object hobject).2] at hkey
      have hwhole (o : S3Object) (ho : o ∈ objects) : fullPrefix keyPrefix [] ++ callerKey keyPrefix o.key = o.key :=
        List.prefix_iff_eq_append.mp (hmem o ho).2
      rw [← hwhole other hother,hkey,hwhole object hobject]
    obtain rfl := List.inj_on_of_nodup_map bucket.distinct (hmem other hother).1 (hmem object hobject).1 hsame
    exact (Option.some.inj (Prod.mk.inj hrest).2).symm
  · rintro ⟨hlength,hsame⟩
    refine ⟨_,list_replyText _,?_⟩
    rw [List.take_of_length_le hlength,List.map_map]
    refine List.Perm.of_eq (List.map_congr_left fun object hobject => ?_)
    obtain ⟨hkey,hetag⟩ := hsame object hobject
    change (strippedKey keyPrefix (store.keyText object.key),_,some (store.etagText object.etag)) = _
    rw [hkey,hetag,strippedKey_eq (hmem object hobject).2]
    rfl

end Complete

/-! ### A store that answers as documented -/

def escapeChar (c : Char) : List Char :=
  if c = '<' then ['&','l','t',';'] else if c = '>' then ['&','g','t',';'] else if c = '&' then ['&','a','m','p',';'] else [c]

def escapeXml (text : List Char) : List Char := text.flatMap escapeChar

theorem escapeXml_plain (text : List Char) : '<' ∉ escapeXml text := by
  intro h
  obtain ⟨c,-,hc⟩ := List.mem_flatMap.mp h
  rw [escapeChar] at hc
  split at hc
  · revert hc
    decide
  next hopen =>
    split at hc
    · revert hc
      decide
    · split at hc
      · revert hc
        decide
      · exact hopen (List.mem_singleton.mp hc).symm

theorem escapeXml_length (text : List Char) : escapeXml text = text ∨ text.length < (escapeXml text).length := by
  induction text with
  | nil => exact .inl rfl
  | cons c text ih =>
    have hchar : escapeChar c = [c] ∨ 1 < (escapeChar c).length := by
      rw [escapeChar]
      split_ifs
      · exact .inr (by decide)
      · exact .inr (by decide)
      · exact .inr (by decide)
      · exact .inl rfl
    rw [escapeXml,List.flatMap_cons,← escapeXml,List.length_append,List.length_cons]
    obtain hchar | hchar := hchar
    · rw [hchar]
      obtain ih | ih := ih
      · exact .inl (congrArg (c :: ·) ih)
      · exact .inr (by rw [List.length_singleton]; omega)
    · obtain ih | ih := ih
      · exact .inr (by rw [ih]; omega)
      · exact .inr (by omega)

def documentedStore : Store where
  maxKeys := 1000
  maxKeys_le := le_rfl
  keyText := escapeXml
  etagText := escapeXml
  dateText := escapeXml
  keyText_plain := escapeXml_plain
  etagText_plain := escapeXml_plain
  dateText_plain := escapeXml_plain
  keyText_length key hne := (escapeXml_length key).resolve_left hne
  summary truncated := [⟨"IsTruncated".toList,if truncated then "true".toList else "false".toList,by decide,
    by cases truncated <;> decide⟩]
  summary_other truncated f hf := by
    obtain rfl := List.mem_singleton.mp hf
    change "IsTruncated".toList ≠ contentsName
    decide

/-- So many objects, with keys of different lengths. -/
def filledBucket (count : ℕ) : Bucket where
  objects := (List.range count).map fun n => ⟨List.replicate (n + 1) 'a',n,[],[]⟩
  distinct := by
    rw [List.map_map]
    refine List.nodup_range.map fun m n h => ?_
    have hlength := congrArg List.length h
    rw [Function.comp_apply,Function.comp_apply,List.length_replicate,List.length_replicate] at hlength
    exact Nat.succ.inj hlength

theorem length_matching_filledBucket (count : ℕ) : (matching (filledBucket count) []).length = count := by
  have hall : matching (filledBucket count) [] = (filledBucket count).objects :=
    List.filter_eq_self.mpr fun _ _ => List.isPrefixOf_iff_prefix.mpr List.nil_prefix
  rw [hall,filledBucket,List.length_map,List.length_range]

theorem filledBucket_incomplete : ¬ ListsAll documentedStore (filledBucket 1001) none [] := by
  intro h
  have hlength := h.length_le
  rw [fullPrefix,length_matching_filledBucket] at hlength
  exact absurd hlength (by decide +kernel)

end StructureAi.Storage.S3
