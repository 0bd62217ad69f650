import Mathlib

/-! # File systems

Directories, files and symbolic links by their paths from the root. A name is looked up in a
directory, a link sends the rest of the path elsewhere, and after too many of them the lookup
fails. A path whose entry is not a link is its own real path.
-/
namespace StructureAi.Foundation

theorem exists_of_bind_ok {E A B : Type} {x : Except E A} {f : A → Except E B} {b : B} (h : (x >>= f) = .ok b) :
    ∃ a, x = .ok a ∧ f a = .ok b := by
  cases x with
  | error e => cases h
  | ok a => exact ⟨a,rfl,h⟩

/-- The names from the root of the file system. -/
abbrev Path := List String

/-- What a link holds: a path from the root or from the directory of the link. -/
structure LinkTarget where
  absolute : Bool
  names : List String

inductive Node (F : Type*) where
  | file (content : F)
  | directory
  | link (target : LinkTarget)

inductive FsError where
  | notFound
  | notDirectory
  | tooManyLinks
deriving DecidableEq

structure FileSystem (F : Type*) where
  entry : Path → Option (Node F)
  root : entry [] = some .directory
  /-- What has a parent has a directory for it. -/
  parent : ∀ path name e, entry (path ++ [name]) = some e → entry path = some .directory
  named : ∀ path name e, entry (path ++ [name]) = some e → name ≠ "" ∧ name ≠ "." ∧ name ≠ ".."

namespace FileSystem
variable {F : Type*} (fs : FileSystem F)

/-- Where a path leads up to its first link: to its end, or to the rest of the path from a directory. -/
def walk : Path → List String → Except FsError (Path ⊕ Path × List String)
  | here,[] => .ok (.inl here)
  | here,name :: rest =>
    if name = "" ∨ name = "." then walk here rest
    else if name = ".." then walk here.dropLast rest
    else match fs.entry (here ++ [name]) with
      | none => .error .notFound
      | some .directory => walk (here ++ [name]) rest
      | some (.file _) => if rest = [] then .ok (.inl (here ++ [name])) else .error .notDirectory
      | some (.link target) => .ok (.inr (if target.absolute then [] else here,target.names ++ rest))

/-- Where a path leads with so many links at most. -/
def follow (links : ℕ) (here : Path) (names : List String) : Except FsError Path :=
  match fs.walk here names with
  | .error e => .error e
  | .ok (.inl path) => .ok path
  | .ok (.inr (here,names)) =>
    match links with
    | 0 => .error .tooManyLinks
    | links + 1 => follow links here names

def maxLinks : ℕ := 40

def realpath (path : Path) : Except FsError Path := fs.follow maxLinks [] path

def stat (path : Path) : Except FsError (Option (Node F)) := (fs.realpath path).map fs.entry

/-- There is something at the path, and it is not a link. -/
def IsReal (path : Path) : Prop := ∃ e, fs.entry path = some e ∧ ∀ target, e ≠ .link target

variable {fs}

theorem directory_of_append {path rest : Path} {e : Node F} (h : fs.entry (path ++ rest) = some e) (hrest : rest ≠ []) :
    fs.entry path = some .directory := by
  induction rest using List.reverseRecOn generalizing e with
  | nil => exact absurd rfl hrest
  | append_singleton rest name ih =>
    rw [← List.append_assoc] at h
    have hparent := fs.parent _ _ _ h
    by_cases hne : rest = []
    · rwa [hne,List.append_nil] at hparent
    · exact ih hparent hne

theorem isReal_of_directory {path : Path} (h : fs.entry path = some .directory) : fs.IsReal path :=
  ⟨_,h,fun target ht => by cases ht⟩

theorem directory_dropLast {path : Path} (h : fs.entry path = some .directory) : fs.entry path.dropLast = some .directory := by
  cases path using List.reverseRecOn with
  | nil => exact h
  | append_singleton path name =>
    rw [List.dropLast_concat]
    exact fs.parent _ _ _ h

theorem walk_cases {here : Path} {names : List String} (hhere : fs.entry here = some .directory) {r : Path ⊕ Path × List String}
    (h : fs.walk here names = .ok r) :
    (∃ path, r = .inl path ∧ fs.IsReal path) ∨ ∃ here' names', r = .inr (here',names') ∧ fs.entry here' = some .directory := by
  induction names generalizing here with
  | nil =>
    obtain rfl := Except.ok.inj h
    exact Or.inl ⟨here,rfl,isReal_of_directory hhere⟩
  | cons name rest ih =>
    rw [walk] at h
    split at h
    next => exact ih hhere h
    next =>
      split at h
      next => exact ih (directory_dropLast hhere) h
      next =>
        split at h
        next => cases h
        next hentry => exact ih hentry h
        next content hentry =>
          split at h
          · obtain rfl := Except.ok.inj h
            exact Or.inl ⟨_,rfl,_,hentry,fun target ht => by cases ht⟩
          · cases h
        next target hentry =>
          obtain rfl := Except.ok.inj h
          refine Or.inr ⟨_,_,rfl,?_⟩
          split
          · exact fs.root
          · exact hhere

theorem follow_isReal {links : ℕ} {here path : Path} {names : List String} (hhere : fs.entry here = some .directory)
    (h : fs.follow links here names = .ok path) : fs.IsReal path := by
  induction links generalizing here names with
  | zero =>
    rw [follow] at h
    split at h
    next => cases h
    next hwalk =>
      obtain rfl := Except.ok.inj h
      rcases walk_cases hhere hwalk with ⟨_,hr,hreal⟩ | ⟨_,_,hr,-⟩
      · cases hr
        exact hreal
      · cases hr
    next => cases h
  | succ links ih =>
    rw [follow] at h
    split at h
    next => cases h
    next hwalk =>
      obtain rfl := Except.ok.inj h
      rcases walk_cases hhere hwalk with ⟨_,hr,hreal⟩ | ⟨_,_,hr,-⟩
      · cases hr
        exact hreal
      · cases hr
    next hwalk =>
      rcases walk_cases hhere hwalk with ⟨_,hr,-⟩ | ⟨_,_,hr,hdirectory⟩
      · cases hr
      · cases hr
        exact ih hdirectory h

theorem realpath_isReal {path real : Path} (h : fs.realpath path = .ok real) : fs.IsReal real := follow_isReal fs.root h

theorem walk_append {here path : Path} {names : List String} {e : Node F} (h : fs.entry (here ++ path) = some e)
    (hd : e = .directory) :
    fs.walk here (path ++ names) = fs.walk (here ++ path) names := by
  subst hd
  induction path generalizing here with
  | nil => rw [List.append_nil,List.nil_append]
  | cons name path ih =>
    have hassoc : here ++ name :: path = here ++ [name] ++ path := by simp
    have hentry : fs.entry (here ++ [name]) = some .directory := by
      by_cases hpath : path = []
      · rwa [hassoc,hpath,List.append_nil] at h
      · rw [hassoc] at h
        exact directory_of_append h hpath
    obtain ⟨h1,h2,h3⟩ := fs.named _ _ _ hentry
    rw [List.cons_append,walk,if_neg (not_or.mpr ⟨h1,h2⟩),if_neg h3,hentry,hassoc]
    rw [hassoc] at h
    exact ih h

theorem walk_of_isReal {path : Path} (h : fs.IsReal path) : fs.walk [] path = .ok (.inl path) := by
  obtain ⟨e,hentry,hlink⟩ := h
  cases path using List.reverseRecOn with
  | nil => rfl
  | append_singleton path name =>
    have hparent : fs.entry ([] ++ path) = some .directory := fs.parent _ _ _ hentry
    obtain ⟨h1,h2,h3⟩ := fs.named _ _ _ hentry
    rw [walk_append hparent rfl,List.nil_append,walk,if_neg (not_or.mpr ⟨h1,h2⟩),if_neg h3,hentry]
    cases e with
    | file content => rfl
    | directory => rfl
    | link target => exact absurd rfl (hlink target)

theorem realpath_of_isReal {path : Path} (h : fs.IsReal path) : fs.realpath path = .ok path := by
  rw [realpath,maxLinks,follow,walk_of_isReal h]

theorem entry_of_realpath {path real : Path} {name : String} (hpath : fs.entry path = some .directory)
    (hname : name ≠ "" ∧ name ≠ "." ∧ name ≠ "..")
    (h : fs.realpath (path ++ [name]) = .ok real) : ∃ e, fs.entry (path ++ [name]) = some e := by
  cases hentry : fs.entry (path ++ [name]) with
  | some e => exact ⟨e,rfl⟩
  | none =>
    rw [realpath,maxLinks,follow,walk_append (by rwa [List.nil_append]) rfl,List.nil_append,walk,
      if_neg (not_or.mpr ⟨hname.1,hname.2.1⟩),if_neg hname.2.2,hentry] at h
    cases h

def isDirectoryEntry : Option (Node F) → Bool
  | some .directory => true
  | _ => false

/-- The entry is the root, or has a name and a directory of the table for its parent. -/
def isPlaced (table : List (Path × Node F)) (path : Path) : Bool :=
  match path.getLast? with
  | none => true
  | some name => name ≠ "" && name ≠ "." && name ≠ ".." && isDirectoryEntry (table.lookup path.dropLast)

theorem isDirectoryEntry_iff {e : Option (Node F)} : isDirectoryEntry e = true ↔ e = some .directory := by
  cases e with
  | none => simp [isDirectoryEntry]
  | some e => cases e <;> simp [isDirectoryEntry]

theorem isPlaced_of_lookup {table : List (Path × Node F)} (h : table.all (fun row => isPlaced table row.1) = true) {path : Path}
    {e : Node F}
    (he : table.lookup path = some e) : isPlaced table path = true := by
  obtain ⟨row,hrow,hpath⟩ : ∃ row ∈ table, row.1 = path := by
    have hsome : (table.lookup path).isSome = true := by rw [he]; rfl
    obtain ⟨row,hrow,heq⟩ := List.lookup_isSome_iff.mp hsome
    exact ⟨row,hrow,(beq_iff_eq.mp heq).symm⟩
  rw [← hpath]
  exact List.all_eq_true.mp h row hrow

def ofTable (table : List (Path × Node F)) (hroot : isDirectoryEntry (table.lookup []) = true)
    (hplaced : table.all (fun row => isPlaced table row.1) = true) : FileSystem F where
  entry path := table.lookup path
  root := isDirectoryEntry_iff.mp hroot
  parent := by
    intro path name e he
    have hplace := isPlaced_of_lookup hplaced he
    simp only [isPlaced,List.getLast?_concat,List.dropLast_concat,Bool.and_eq_true] at hplace
    exact isDirectoryEntry_iff.mp hplace.2
  named := by
    intro path name e he
    have hplace := isPlaced_of_lookup hplaced he
    simp only [isPlaced,List.getLast?_concat,Bool.and_eq_true,decide_eq_true_eq] at hplace
    exact ⟨hplace.1.1.1,hplace.1.1.2,hplace.1.2⟩

end FileSystem
end StructureAi.Foundation
