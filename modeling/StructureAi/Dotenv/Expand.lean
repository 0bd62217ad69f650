import StructureAi.Dotenv.Document
import StructureAi.Foundation.Chunks
import StructureAi.Foundation.Definitions

/-! # Expansion of references

The values of a set of entries may refer to each other and to the environment. The text of a value is a program
that asks for the entries it refers to, one after the other, and for those of a default only when it is taken.
-/
namespace StructureAi.Dotenv
open StructureAi.Foundation

/-- A value awaiting expansion. -/
structure Expandable where
  key : JsString
  value : JsString
  quote : QuoteStyle

/-- `env` answers as `env[name]` does, and `override` says which side wins. -/
structure ExpandOptions where
  env : JsString → Option JsString
  override : Bool

inductive DotenvErrorKind
  | read
  | missing
  | expand
  | write
  | run
  | invalid
deriving DecidableEq

structure DotenvError where
  kind : DotenvErrorKind
  key : JsString
  reason : JsString
deriving DecidableEq

inductive Operator
  | colonMinus
  | minus
  | colonPlus
  | plus
deriving DecidableEq

/-- What `REFERENCE` takes a text apart into. -/
inductive Fragment
  | literal (u : CodeUnit)
  | escapedDollar
  | reference (name : JsString) (operator : Option Operator) (fallback : JsString)
deriving DecidableEq

/-- `[A-Za-z_]` -/
def isNameStart (u : CodeUnit) : Bool := between 'A' 'Z' u || between 'a' 'z' u || u = unit '_'

/-- `[A-Za-z0-9_]` -/
def isNameUnit (u : CodeUnit) : Bool := isNameStart u || between '0' '9' u

def takeName (s : JsString) : Option (JsString × JsString) :=
  if s.head?.any isNameStart then some (s.takeWhile isNameUnit,s.dropWhile isNameUnit) else none

/-- `:?[-+]` -/
def takeOperator : JsString → Option (Operator × JsString)
  | u :: v :: rest =>
    if u = unit ':' then
      if v = unit '-' then some (.colonMinus,rest) else if v = unit '+' then some (.colonPlus,rest) else none
    else if u = unit '-' then some (.minus,v :: rest)
    else if u = unit '+' then some (.plus,v :: rest)
    else none
  | _ => none

/-- `(?:[^{}]|\{[^{}]*\})*` up to the brace that closes the reference. -/
def takeFallback : Bool → JsString → Option (JsString × JsString)
  | _,[] => none
  | inGroup,u :: rest =>
    if u = unit '\x7d' then
      if inGroup then (takeFallback false rest).map fun (fallback,after) => (u :: fallback,after) else some ([],rest)
    else if u = unit '\x7b' then
      if inGroup then none else (takeFallback true rest).map fun (fallback,after) => (u :: fallback,after)
    else (takeFallback inGroup rest).map fun (fallback,after) => (u :: fallback,after)

/-- A reference in braces, after the brace that opens it. -/
def takeBraced (s : JsString) : Option (Fragment × JsString) := do
  let (name,rest) ← takeName s
  if rest.head? = some (unit '\x7d') then some (.reference name none [],rest.tail)
  else
    let (operator,rest) ← takeOperator rest
    let (fallback,rest) ← takeFallback false rest
    some (.reference name (some operator) fallback,rest)

/-- `REFERENCE` -/
def takeReference : JsString → Option (Fragment × JsString)
  | u :: v :: rest =>
    if u = unit '\\' ∧ v = unit '$' then some (.escapedDollar,rest)
    else if u = unit '$' then
      if v = unit '\x7b' then takeBraced rest else (takeName (v :: rest)).map fun (name,rest) => (.reference name none [],rest)
    else none
  | _ => none

/-- A match at the beginning of the text, or its first unit. -/
def takeFragment : JsString → Option (Fragment × JsString)
  | [] => none
  | u :: rest => (takeReference (u :: rest)).getD (.literal u,rest)

/-- The text that a fragment holds back to be expanded in turn. -/
def Fragment.fallback : Fragment → JsString
  | .literal _ => []
  | .escapedDollar => []
  | .reference _ _ fallback => fallback

section Lengths
variable {s rest : JsString} {inGroup : Bool} {held name : JsString} {operator : Operator} {fragment : Fragment}

theorem takeName_length (h : takeName s = some (name,rest)) : rest.length < s.length := by
  unfold takeName at h
  split at h
  · rename_i hstart
    obtain ⟨rfl,rfl⟩ := Prod.mk.inj (Option.some.inj h)
    cases s with
    | nil => cases hstart
    | cons u s =>
      have hu : isNameUnit u = true := by
        unfold isNameUnit
        rw [Bool.or_eq_true]
        exact Or.inl hstart
      rw [List.dropWhile_cons_of_pos hu]
      exact Nat.lt_succ_of_le (List.length_dropWhile_le _ _)
  · cases h

theorem takeOperator_length (h : takeOperator s = some (operator,rest)) : rest.length < s.length := by
  unfold takeOperator at h
  split at h
  · repeat' split at h
    all_goals cases h
    all_goals simp
  · cases h

theorem takeFallback_length (h : takeFallback inGroup s = some (held,rest)) : held.length + rest.length < s.length := by
  induction s generalizing inGroup held with
  | nil => cases h
  | cons u s ih =>
    have hmore : ∀ {group held},
        (takeFallback group s).map (fun (fallback,after) => (u :: fallback,after)) = some (held,rest) →
          held.length + rest.length < s.length + 1 := by
      intro group held h
      obtain ⟨⟨held',rest'⟩,htake,heq⟩ := Option.map_eq_some_iff.mp h
      obtain ⟨rfl,rfl⟩ := Prod.mk.inj heq
      have hlength := ih htake
      rw [List.length_cons]
      omega
    unfold takeFallback at h
    by_cases hclose : u = unit '\x7d'
    · rw [if_pos hclose] at h
      cases inGroup with
      | true => exact hmore h
      | false =>
        obtain ⟨rfl,rfl⟩ := Prod.mk.inj (Option.some.inj h)
        simp
    · rw [if_neg hclose] at h
      by_cases hopen : u = unit '\x7b'
      · rw [if_pos hopen] at h
        cases inGroup with
        | true => cases h
        | false => exact hmore h
      · rw [if_neg hopen] at h
        exact hmore h

theorem takeBraced_length (h : takeBraced s = some (fragment,rest)) : fragment.fallback.length + rest.length < s.length := by
  obtain ⟨⟨name,afterName⟩,hname,h⟩ := Option.bind_eq_some_iff.mp h
  have hnameLength := takeName_length hname
  simp only at h
  by_cases hclose : afterName.head? = some (unit '\x7d')
  · rw [if_pos hclose] at h
    obtain ⟨rfl,rfl⟩ := Prod.mk.inj (Option.some.inj h)
    rw [Fragment.fallback,List.length_tail,List.length_nil]
    omega
  · rw [if_neg hclose] at h
    obtain ⟨⟨operator,afterOperator⟩,hoperator,h⟩ := Option.bind_eq_some_iff.mp h
    obtain ⟨⟨fallback,afterFallback⟩,hfallback,h⟩ := Option.bind_eq_some_iff.mp h
    obtain ⟨rfl,rfl⟩ := Prod.mk.inj (Option.some.inj h)
    have hoperatorLength := takeOperator_length hoperator
    have hfallbackLength := takeFallback_length hfallback
    simp only [Fragment.fallback] at hoperatorLength hfallbackLength ⊢
    omega

theorem takeReference_length (h : takeReference s = some (fragment,rest)) :
    fragment.fallback.length + rest.length < s.length := by
  unfold takeReference at h
  split at h
  · rename_i u v tail
    split at h
    · obtain ⟨rfl,rfl⟩ := Prod.mk.inj (Option.some.inj h)
      simp [Fragment.fallback]
    · split at h
      · split at h
        · have hlength := takeBraced_length h
          simp only [List.length_cons]
          omega
        · obtain ⟨⟨name,afterName⟩,hname,heq⟩ := Option.map_eq_some_iff.mp h
          obtain ⟨rfl,rfl⟩ := Prod.mk.inj heq
          have hlength := takeName_length hname
          simp only [Fragment.fallback,List.length_cons,List.length_nil] at hlength ⊢
          omega
      · cases h
  · cases h

theorem takeFragment_length (h : takeFragment s = some (fragment,rest)) : fragment.fallback.length + rest.length < s.length := by
  cases s with
  | nil => cases h
  | cons u s =>
    have h : some ((takeReference (u :: s)).getD (.literal u,s)) = some (fragment,rest) := h
    cases hreference : takeReference (u :: s) with
    | none =>
      rw [hreference,Option.getD_none] at h
      obtain ⟨rfl,rfl⟩ := Prod.mk.inj (Option.some.inj h)
      simp [Fragment.fallback]
    | some found =>
      rw [hreference,Option.getD_some] at h
      obtain rfl := Option.some.inj h
      exact takeReference_length hreference

end Lengths

/-- The matches of `REFERENCE` and the units between them. -/
def fragmentCutter : Cutter CodeUnit Fragment where
  cut := takeFragment
  shorter h := (Nat.le_add_left _ _).trans_lt (takeFragment_length h)

def fragments (text : JsString) : List Fragment := (fragmentCutter.drain text).1

section Interpolation
variable (options : ExpandOptions)

/-- A name that is among the entries is asked for. -/
def fromEntries (name : JsString) : Query JsString JsString (Option JsString) := Program.perform name

def lookup (name : JsString) : Query JsString JsString (Option JsString) :=
  if options.override then do
    match ← fromEntries name with
    | some value => pure (some value)
    | none => pure (options.env name)
  else
    match options.env name with
    | some value => pure (some value)
    | none => fromEntries name

def replacement (interpolate : JsString → Query JsString JsString JsString) : Fragment → Query JsString JsString JsString
  | .literal u => pure [u]
  | .escapedDollar => pure [unit '$']
  | .reference name operator alternate => do
    let value ← lookup options name
    match operator with
    | some .colonMinus => if value = none ∨ value = some [] then interpolate alternate else pure (value.getD [])
    | some .minus => if value = none then interpolate alternate else pure (value.getD [])
    | some .colonPlus => if value ≠ none ∧ value ≠ some [] then interpolate alternate else pure []
    | some .plus => if value ≠ none then interpolate alternate else pure []
    | none => pure (value.getD [])

def replaceFragments (interpolate : JsString → Query JsString JsString JsString) : List Fragment →
    Query JsString JsString JsString
  | [] => pure []
  | fragment :: rest => do
    let replaced ← replacement options interpolate fragment
    let text ← replaceFragments interpolate rest
    pure (replaced ++ text)

/-- The expansion of a text to a depth that its defaults do not reach. -/
def interpolateWithin : ℕ → JsString → Query JsString JsString JsString
  | 0,_ => pure []
  | depth + 1,text => replaceFragments options (interpolateWithin depth) (fragments text)

def interpolate (text : JsString) : Query JsString JsString JsString := interpolateWithin options (text.length + 1) text

end Interpolation

theorem fragments_fallback {text : JsString} {fragment : Fragment} (h : fragment ∈ fragments text) :
    fragment.fallback.length < text.length := by
  unfold fragments at h
  induction hn : text.length using Nat.strong_induction_on generalizing text with
  | _ n ih =>
    cases hcut : fragmentCutter.cut text with
    | none =>
      rw [Cutter.drain_none hcut] at h
      cases h
    | some cutting =>
      obtain ⟨first,rest⟩ := cutting
      have hlength := takeFragment_length hcut
      rw [Cutter.drain_some hcut] at h
      rcases List.mem_cons.mp h with rfl | h
      · omega
      · have hrest := ih rest.length (by omega) h rfl
        omega

section Depth
variable {options : ExpandOptions}

theorem replaceFragments_congr {interpolate interpolate' : JsString → Query JsString JsString JsString}
    {fragments : List Fragment}
    (h : ∀ fragment ∈ fragments, interpolate fragment.fallback = interpolate' fragment.fallback) :
    replaceFragments options interpolate fragments = replaceFragments options interpolate' fragments := by
  induction fragments with
  | nil => rfl
  | cons fragment fragments ih =>
    have hfirst : replacement options interpolate fragment = replacement options interpolate' fragment := by
      have hheld := h fragment List.mem_cons_self
      cases fragment with
      | literal u => rfl
      | escapedDollar => rfl
      | reference name operator fallback =>
        have hheld : interpolate fallback = interpolate' fallback := hheld
        simp only [replacement,hheld]
    rw [replaceFragments,replaceFragments,hfirst,ih fun later hlater => h later (List.mem_cons_of_mem fragment hlater)]

theorem interpolateWithin_enough {depth : ℕ} {text : JsString} (h : text.length < depth) :
    interpolateWithin options depth text = interpolate options text := by
  have key : ∀ (depth depth' : ℕ) (text : JsString), text.length < depth → text.length < depth' →
      interpolateWithin options depth text = interpolateWithin options depth' text := by
    intro depth
    induction depth with
    | zero =>
      intro depth' text h
      exact absurd h (Nat.not_lt_zero _)
    | succ depth ih =>
      intro depth' text h h'
      cases depth' with
      | zero => exact absurd h' (Nat.not_lt_zero _)
      | succ depth' =>
        rw [interpolateWithin,interpolateWithin]
        apply replaceFragments_congr
        intro fragment hfragment
        have hshorter := fragments_fallback hfragment
        exact ih depth' fragment.fallback (by omega) (by omega)
  exact key depth (text.length + 1) text h (Nat.lt_succ_self _)

/-- `interpolate` expands the defaults that are taken by itself. -/
theorem interpolate_eq (text : JsString) :
    interpolate options text = replaceFragments options (interpolate options) (fragments text) := by
  rw [interpolate,interpolateWithin]
  apply replaceFragments_congr
  intro fragment hfragment
  exact interpolateWithin_enough (fragments_fallback hfragment)

end Depth

/-- `raw`: of entries with one key the last counts. -/
def rawEntries (entries : List Expandable) : List (JsString × Expandable) :=
  entries.foldl (fun raw entry => put entry.key entry raw) []

/-- What is done to find the value of an entry. -/
def resolution (options : ExpandOptions) (entry : Expandable) : Query JsString JsString JsString :=
  if entry.quote = .single then pure entry.value else interpolate options entry.value

theorem mem_of_rawEntries {entries : List Expandable} {name : JsString} {entry : Expandable}
    (h : valueAt name (rawEntries entries) = some entry) : entry ∈ entries ∧ entry.key = name := by
  unfold rawEntries valueAt at h
  induction entries using List.reverseRecOn with
  | nil => cases h
  | append_singleton entries last ih =>
    rw [List.foldl_append,List.foldl_cons,List.foldl_nil,lookup_put] at h
    split at h
    · rename_i hname
      obtain rfl := Option.some.inj h
      exact ⟨List.mem_append_right entries List.mem_cons_self,hname.symm⟩
    · obtain ⟨hin,hkey⟩ := ih h
      exact ⟨List.mem_append_left [last] hin,hkey⟩

def expansions (entries : List Expandable) (options : ExpandOptions) : Definitions JsString JsString where
  names := entries.map Expandable.key
  define name := (valueAt name (rawEntries entries)).map (resolution options)
  covers := by
    intro name query h
    obtain ⟨entry,hlookup,-⟩ := Option.map_eq_some_iff.mp h
    obtain ⟨hin,rfl⟩ := mem_of_rawEntries hlookup
    exact List.mem_map_of_mem hin

def expansionCycle (name : JsString) : DotenvError :=
  ⟨.expand,name,units "variable expansion cycle through ".toList ++ name⟩

def collect : List Expandable → List (JsString × JsString) → Query JsString JsString (List (JsString × JsString))
  | [],out => pure out
  | entry :: entries,out => do
    let value ← fromEntries entry.key
    collect entries (put entry.key (value.getD []) out)

/-- `expand`, which recurses no deeper than the fuel. -/
def expand (fuel : ℕ) (entries : List Expandable) (options : ExpandOptions) :
    Option (Except DotenvError (List (JsString × JsString))) :=
  (((collect entries []).interpret ((expansions entries options).fetch fuel)).valueOn ⟨[],[]⟩).map
    (Except.mapError expansionCycle)

end StructureAi.Dotenv
