import StructureAi.Http.RouteLabel
import Mathlib.Data.List.Lex
import Mathlib.Data.List.MinMax

/-! # When the label is the route served

The expression of a template takes what the template takes with its constraints left out, so long as
no constraint has a parenthesis that closes or a slash in it. The label is the first in the order of the
declarations, the route served the most specific.
-/
namespace StructureAi.Http.Routes
open StructureAi.Foundation Atom
variable {admits : List Char → List Char → Bool}

section Tokens

abbrev fits : List Segment → List (List Char) → Bool := takes fun _ _ => true

/-- No constraint holds a mark that ends it for the expression. -/
def Segment.Plain : Segment → Prop
  | .param _ (some constraint) => ∀ c ∈ constraint, c ≠ ')' ∧ c ≠ '/'
  | _ => True

/-- The expression of a segment of a plain template. -/
def Segment.atoms : Segment → List (Atom Char)
  | .literal text => text.map one
  | .param _ _ => [anySegment]
  | .wildcard => [anyRest]

theorem tokens_drop (n : ℕ) (cs : List Char) : tokens n cs = tokens 0 (cs.drop n) := by
  induction cs generalizing n with
  | nil => rw [List.drop_nil,tokens,tokens]
  | cons c cs ih =>
    cases n with
    | zero => rfl
    | succ n => rw [tokens,List.drop_succ_cons,ih]

theorem tokens_literal {text : List Char} (h : ∀ c ∈ text, c ≠ ':') : tokens 0 text = text.map one := by
  induction text with
  | nil => rfl
  | cons c text ih =>
    rw [tokens,if_neg fun hc => h c List.mem_cons_self hc.1,ih fun d hd => h d (List.mem_cons_of_mem c hd)]
    rfl

theorem not_wordChar {c : Char} (hc : c ∈ ['/','(',')',':','*']) : isWordChar c = false :=
  of_decide_eq_true (List.all_eq_true.mp (by decide : ['/','(',')',':','*'].all (fun c => decide (isWordChar c = false)) =
    true) c hc)

theorem tokens_param {name constraint : List Char} (hne : name ≠ []) (hname : ∀ c ∈ name, isWordChar c = true)
    (hlength : paramLength (name ++ constraint) = (name ++ constraint).length) : tokens 0 (':' :: (name ++ constraint)) =
      [anySegment] := by
  obtain ⟨c,name,rfl⟩ := List.exists_cons_of_ne_nil hne
  have hhead : (c :: name ++ constraint).head?.any isWordChar = true := hname c List.mem_cons_self
  rw [tokens,if_pos ⟨rfl,hhead⟩,tokens_drop,hlength,List.drop_length,tokens]

theorem compileSegment_text {s : Segment} (hs : s.WellFormed) (hplain : s.Plain) : compileSegment s.text = s.atoms := by
  cases s with
  | literal text =>
    have hno : text ≠ ['*'] := fun h => (hs '*' (h ▸ List.mem_singleton_self _)).2.2 rfl
    exact (if_neg hno).trans (tokens_literal fun c hc => (hs c hc).2.1)
  | wildcard => exact if_pos rfl
  | param name constraint =>
    obtain ⟨hne,hname⟩ := hs
    cases constraint with
    | none =>
      have hlength : paramLength (name ++ []) = (name ++ []).length := by
        obtain ⟨htake,hdrop⟩ := takeWhile_stop hname (fun c hc => absurd hc (by simp) : ∀ c ∈ ([] : List Char).head?,
          isWordChar c = false)
        rw [paramLength,htake,hdrop,List.append_nil]
        rfl
      have htokens := tokens_param hne hname hlength
      rw [List.append_nil] at htokens
      exact (if_neg fun h => absurd (List.cons.inj h).1 (by decide)).trans htokens
    | some constraint =>
      have hlength : paramLength (name ++ '(' :: (constraint ++ [')'])) = (name ++ '(' :: (constraint ++ [')'])).length := by
        have hopens : ∀ c ∈ ('(' :: (constraint ++ [')'])).head?, isWordChar c = false := by
          intro c hc
          rw [← Option.some.inj hc]
          exact not_wordChar (by decide)
        have hinside : (constraint ++ [')']).takeWhile (· ≠ ')') = constraint := by
          refine (takeWhile_stop (fun c hc => decide_eq_true (hplain c hc).1) fun c hc => ?_).1
          rw [← Option.some.inj hc]
          rfl
        obtain ⟨htake,hdrop⟩ := takeWhile_stop hname hopens
        rw [paramLength,htake,hdrop]
        change name.length + (if ')' ∈ constraint ++ [')'] then ((constraint ++ [')']).takeWhile (· ≠ ')')).length +
          2 else 0) = _
        rw [if_pos (List.mem_append_right _ (List.mem_singleton_self _)),hinside]
        simp only [List.length_append,List.length_cons,List.length_nil]
      exact (if_neg fun h => absurd (List.cons.inj h).1 (by decide)).trans (tokens_param hne hname hlength)

theorem slash_not_mem_text {s : Segment} (hs : s.WellFormed) (hplain : s.Plain) : '/' ∉ s.text := by
  have hword {name : List Char} (hname : ∀ c ∈ name, isWordChar c = true) : '/' ∉ name := fun hin => by
    have hslash := hname '/' hin
    rw [not_wordChar (by decide)] at hslash
    exact absurd hslash (by decide)
  cases s with
  | literal text => exact fun hin => (hs '/' hin).1 rfl
  | wildcard => decide
  | param name constraint =>
    cases constraint with
    | none =>
      intro hin
      rcases List.mem_cons.mp hin with h | hin
      · exact absurd h (by decide)
      · exact hword hs.2 hin
    | some constraint =>
      intro hin
      simp only [Segment.text,List.mem_cons,List.mem_append,List.not_mem_nil,or_false] at hin
      rcases hin with h | hin | h | hin | h
      · exact absurd h (by decide)
      · exact hword hs.2 hin
      · exact absurd h (by decide)
      · exact (hplain '/' hin).2 rfl
      · exact absurd h (by decide)

theorem compileTemplate_text (template : Template) (hplain : ∀ s ∈ template.segments, s.Plain) :
    compileTemplate template.text = template.segments.flatMap fun s => one '/' :: s.atoms := by
  have hsplit : template.text.splitOn '/' = [] :: template.segments.map Segment.text := by
    have hno : ∀ text ∈ template.segments.map Segment.text, ∀ c ∈ text, (c == '/') = false := by
      intro text htext c hc
      obtain ⟨s,hs,rfl⟩ := List.mem_map.mp htext
      exact beq_eq_false_iff_ne.mpr fun heq => slash_not_mem_text (template.wellFormed s hs) (hplain s hs) (heq ▸ hc)
    have hpieces : ([] ++ (template.segments.map Segment.text).flatMap fun text => '/' :: text).splitOnP (· == '/') =
        [] :: template.segments.map Segment.text := splitOnP_pieces rfl (fun c hc => absurd hc List.not_mem_nil) hno
    rw [List.nil_append,List.flatMap_map] at hpieces
    exact hpieces
  rw [compileTemplate,hsplit,List.map_cons,List.map_map,intercalate_cons,List.flatMap_map]
  have hempty : compileSegment [] = [] := rfl
  rw [hempty,List.nil_append]
  refine List.flatMap_congr fun s hs => ?_
  exact congrArg (one '/' :: ·) (compileSegment_text (template.wellFormed s hs) (hplain s hs))

end Tokens

section Fitting

theorem append_inj_slash {a b x y : List Char} (ha : '/' ∉ a) (hb : '/' ∉ b) (hx : x = [] ∨ x.head? = some '/')
    (hy : y = [] ∨ y.head? = some '/') (h : a ++ x = b ++ y) : a = b ∧ x = y := by
  have hstop {rest : List Char} (hrest : rest = [] ∨ rest.head? = some '/') : ∀ c ∈ rest.head?, decide (c ≠ '/') = false := by
    intro c hc
    rcases hrest with rfl | hrest
    · exact nomatch hc
    · obtain rfl : '/' = c := Option.some.inj (hrest.symm.trans hc)
      rfl
  have hin {text : List Char} (htext : '/' ∉ text) : ∀ c ∈ text, decide (c ≠ '/') = true := fun c hc =>
    decide_eq_true fun heq => htext (heq ▸ hc)
  obtain ⟨htake,hdrop⟩ := takeWhile_stop (hin ha) (hstop hx)
  obtain ⟨htake',hdrop'⟩ := takeWhile_stop (hin hb) (hstop hy)
  rw [h] at htake hdrop
  exact ⟨htake.symm.trans htake',hdrop.symm.trans hdrop'⟩

def pathOf (parts : List (List Char)) : List Char := parts.flatMap ('/' :: ·)

def atomsOf (segments : List Segment) : List (Atom Char) := segments.flatMap fun s => one '/' :: s.atoms

theorem pathOf_start (parts : List (List Char)) : pathOf parts = [] ∨ (pathOf parts).head? = some '/' := by
  cases parts with
  | nil => exact Or.inl rfl
  | cons part parts => exact Or.inr rfl

theorem start_of_matchAll {segments : List Segment} {text : List Char} (h : matchAll (atomsOf segments) text = true) :
    text = [] ∨ text.head? = some '/' := by
  cases segments with
  | nil => exact Or.inl (List.isEmpty_iff.mp h)
  | cons s segments =>
    have hword : matchAll (['/'].map one ++ (s.atoms ++ atomsOf segments)) text = true := h
    obtain ⟨after,rfl,-⟩ := matchAll_word.mp hword
    exact Or.inr rfl

/-- The expression of a plain template takes the paths that fit the template with its constraints left out. -/
theorem matchAll_atomsOf {segments : List Segment} {parts : List (List Char)} (hwell : ∀ s ∈ segments, s.WellFormed)
    (hlast : ∀ s ∈ segments.dropLast, s ≠ .wildcard) (hparts : ∀ part ∈ parts, ∀ c ∈ part, c ≠ '/' ∧
      isLineTerminator c = false) :
    matchAll (atomsOf segments) (pathOf parts) = true ↔ fits segments parts = true := by
  induction segments generalizing parts with
  | nil =>
    cases parts with
    | nil => exact ⟨fun _ => rfl,fun _ => rfl⟩
    | cons part parts => exact ⟨fun h => (nomatch h),fun h => (nomatch h)⟩
  | cons s segments ih =>
    cases parts with
    | nil => exact ⟨fun h => (nomatch h),fun h => (nomatch h)⟩
    | cons part parts =>
      obtain ⟨hpart,hrest⟩ := List.forall_mem_cons.mp hparts
      have hslash : '/' ∉ part := fun hin => (hpart '/' hin).1 rfl
      have hopen : matchAll (atomsOf (s :: segments)) (pathOf (part :: parts)) = matchAll (s.atoms ++ atomsOf segments)
        (part ++ pathOf parts) :=
        Bool.true_and _
      rw [hopen]
      by_cases hwildcard : s = .wildcard
      · -- nothing follows
        subst hwildcard
        have hnil : segments = [] := by
          by_contra hne
          rw [List.dropLast_cons_of_ne_nil hne] at hlast
          exact hlast .wildcard List.mem_cons_self rfl
        subst hnil
        refine ⟨fun _ => rfl,fun _ => matchAll_star fun c hc => ?_⟩
        rw [Bool.not_eq_true']
        rcases List.mem_append.mp hc with hc | hc
        · exact (hpart c hc).2
        · obtain ⟨other,hother,hin⟩ := List.mem_flatMap.mp hc
          rcases List.mem_cons.mp hin with rfl | hin
          · decide
          · exact (hrest other hother c hin).2
      · have hlast' : ∀ t ∈ segments.dropLast, t ≠ .wildcard := by
          by_cases hne : segments = []
          · rw [hne]
            exact fun t ht => absurd ht List.not_mem_nil
          · rw [List.dropLast_cons_of_ne_nil hne] at hlast
            exact fun t ht => hlast t (List.mem_cons_of_mem s ht)
        have htail := ih (fun t ht => hwell t (List.mem_cons_of_mem s ht)) hlast' hrest
        have hfits : fits (s :: segments) (part :: parts) = (s.accepts (fun _ _ => true) part && fits segments parts) := by
          rw [fits,takes,decide_eq_false hwildcard,Bool.false_or]
        rw [hfits,Bool.and_eq_true,← htail]
        have hs := hwell s List.mem_cons_self
        cases s with
        | wildcard => exact absurd rfl hwildcard
        | literal text =>
          have htext : '/' ∉ text := fun hin => (hs '/' hin).1 rfl
          rw [Segment.atoms,matchAll_word,Segment.accepts,decide_eq_true_iff]
          constructor
          · rintro ⟨after,hsplit,hafter⟩
            obtain ⟨rfl,rfl⟩ := append_inj_slash hslash htext (pathOf_start parts) (start_of_matchAll hafter) hsplit
            exact ⟨rfl,hafter⟩
          · rintro ⟨rfl,hafter⟩
            exact ⟨pathOf parts,rfl,hafter⟩
        | param name constraint =>
          have haccepts : (Segment.param name constraint).accepts (fun _ _ => true) part = true ↔ part ≠ [] := by
            cases constraint <;> simp [Segment.accepts]
          have hatoms : (Segment.param name constraint).atoms ++ atomsOf segments = anySegment :: atomsOf segments := rfl
          rw [haccepts,hatoms,anySegment,matchAll_plus]
          constructor
          · rintro ⟨before,after,hsplit,hne,hbefore,hafter⟩
            have hin : '/' ∉ before := fun hin => of_decide_eq_true (hbefore '/' hin) rfl
            obtain ⟨rfl,rfl⟩ := append_inj_slash hslash hin (pathOf_start parts) (start_of_matchAll hafter) hsplit
            exact ⟨hne,hafter⟩
          · rintro ⟨hne,hafter⟩
            exact ⟨part,pathOf parts,rfl,hne,fun c hc => decide_eq_true (hpart c hc).1,hafter⟩

end Fitting

section Labels
variable {api : Api admits} {request : Request}

/-- The expression compiled from the template takes the path of the request. -/
def Template.Matches (template : Template) (request : Request) : Prop :=
  matchAll (compileTemplate template.text) request.path = true

/-- What the api declares for the method of the request, and what is mounted. -/
def Api.candidates (api : Api admits) (request : Request) : List Template :=
  (api.endpoints.filter fun e => e.method = request.method).map Endpoint.template ++ api.extra

theorem matches_iff_fits {template : Template} (hplain : ∀ s ∈ template.segments, s.Plain) :
    template.Matches request ↔ fits template.segments request.parts = true := by
  rw [Template.Matches,compileTemplate_text template hplain]
  exact matchAll_atomsOf template.wellFormed template.wildcard_last fun part hpart c hc =>
    ⟨(request.plain part hpart c hc).1,(request.plain part hpart c hc).2.2.2⟩

theorem fits_of_takes {segments : List Segment} {parts : List (List Char)} (h : takes admits segments parts = true) :
    fits segments parts = true := by
  induction segments generalizing parts with
  | nil => cases parts <;> exact h
  | cons s segments ih =>
    cases parts with
    | nil => exact h
    | cons part parts =>
      rw [takes,Bool.or_eq_true,Bool.and_eq_true] at h
      rw [fits,takes,Bool.or_eq_true,Bool.and_eq_true]
      refine h.imp_right fun ⟨haccepts,hrest⟩ => ⟨?_,ih hrest⟩
      cases s with
      | literal text => exact haccepts
      | wildcard => rfl
      | param name constraint =>
        cases constraint with
        | none => exact haccepts
        | some constraint =>
          rw [Segment.accepts,Bool.and_eq_true] at haccepts
          rw [Segment.accepts,haccepts.1]
          rfl

theorem Template.text_ne_unmatched (template : Template) : template.text ≠ unmatchedRoute := by
  obtain ⟨s,segments,hsegments⟩ := List.exists_cons_of_ne_nil template.nonempty
  intro h
  rw [Template.text,hsegments] at h
  exact absurd (List.cons.inj (h.trans (by decide : unmatchedRoute = '(' :: "unmatched)".toList))).1 (by decide)

theorem url_path (request : Request) : request.url.takeWhile (· ≠ '?') = request.path := by
  refine (takeWhile_stop (fun c hc => ?_) fun c hc => ?_).1
  · obtain ⟨part,hpart,hin⟩ := List.mem_flatMap.mp hc
    rcases List.mem_cons.mp hin with rfl | hin
    · rfl
    · exact decide_eq_true (request.plain part hpart c hin).2.1
  · rcases request.query_marked with hnone | hmarked
    · rw [hnone] at hc
      exact nomatch hc
    · obtain rfl : '?' = c := Option.some.inj (hmarked.symm.trans hc)
      rfl

theorem patterns_declared (endpoints : List Endpoint) (extra : List Template) (method : HttpMethod) :
    (endpoints.map (fun e => e.template.pattern (some e.method)) ++ extra.map (Template.pattern none)).filter (fun p =>
      p.method = some method) =
      ((endpoints.filter fun e => e.method = method).map Endpoint.template).map (Template.pattern (some method)) := by
  have hextra : (extra.map (Template.pattern none)).filter (fun p => p.method = some method) = [] := by
    refine List.filter_eq_nil_iff.mpr fun p hp => ?_
    obtain ⟨t,-,rfl⟩ := List.mem_map.mp hp
    exact of_decide_eq_false rfl
  have hmethod : ((fun p : RoutePattern => decide (p.method = some method)) ∘ fun e : Endpoint =>
    e.template.pattern (some e.method)) =
      fun e => decide (e.method = method) := funext fun e => by simp [Template.pattern]
  rw [List.filter_append,hextra,List.append_nil,List.map_map,List.filter_map,hmethod]
  refine List.map_congr_left fun e he => ?_
  have hsame : e.method = method := of_decide_eq_true (List.mem_filter.mp he).2
  rw [hsame]
  rfl

theorem patterns_mounted (endpoints : List Endpoint) (extra : List Template) :
    (endpoints.map (fun e => e.template.pattern (some e.method)) ++ extra.map (Template.pattern none)).filter (fun p =>
      p.method = none) =
      extra.map (Template.pattern none) := by
  have hendpoints : (endpoints.map (fun e => e.template.pattern (some e.method))).filter (fun p => p.method = none) = [] := by
    refine List.filter_eq_nil_iff.mpr fun p hp => ?_
    obtain ⟨e,-,rfl⟩ := List.mem_map.mp hp
    exact of_decide_eq_false rfl
  rw [List.filter_append,hendpoints,List.nil_append]
  refine List.filter_eq_self.mpr fun p hp => ?_
  obtain ⟨t,-,rfl⟩ := List.mem_map.mp hp
  rfl

theorem find_pattern (method : Option HttpMethod) (templates : List Template) (path : List Char) :
    (templates.map (Template.pattern method)).find? (fun p => p.test path) =
      (templates.find? fun t => matchAll (compileTemplate t.text) path).map (Template.pattern method) := List.find?_map

theorem label_eq (api : Api admits) (request : Request) : api.label request =
    ((api.candidates request).find? fun t => matchAll (compileTemplate t.text) request.path).elim unmatchedRoute
      Template.text := by
  rw [Api.label,withRouteLabel,url_path,routeLabel,matchRoute,patterns_declared,patterns_mounted,List.find?_append,find_pattern,
    find_pattern,Api.candidates,List.find?_append]
  cases ((api.endpoints.filter fun e => e.method = request.method).map Endpoint.template).find?
      fun t => matchAll (compileTemplate t.text) request.path with
  | some t => rfl
  | none =>
    cases api.extra.find? fun t => matchAll (compileTemplate t.text) request.path with
    | some t => rfl
    | none => rfl

theorem label_cases (api : Api admits) (request : Request) :
    (api.label request = unmatchedRoute ∧ ∀ t ∈ api.candidates request, ¬ t.Matches request) ∨
    ∃ before t after, api.candidates request = before ++ t :: after ∧ (∀ other ∈ before, ¬ other.Matches request) ∧
      t.Matches request ∧ api.label request = t.text := by
  have hlabel := label_eq api request
  cases hfound : (api.candidates request).find? fun t => matchAll (compileTemplate t.text) request.path with
  | none =>
    rw [hfound] at hlabel
    exact Or.inl ⟨hlabel,fun t ht => List.find?_eq_none.mp hfound t ht⟩
  | some t =>
    rw [hfound] at hlabel
    obtain ⟨htest,before,after,hsplit,hbefore⟩ := List.find?_eq_some_iff_append.mp hfound
    refine Or.inr ⟨before,t,after,hsplit,fun other hother hmatch => ?_,htest,hlabel⟩
    have hno := hbefore other hother
    rw [hmatch] at hno
    exact absurd hno (by decide)

/-- None of the endpoints of the method that are declared before `e` is taken. -/
def Api.First (api : Api admits) (request : Request) (taken : Template → Prop) (e : Endpoint) : Prop :=
  ∃ before after, api.endpoints = before ++ e :: after ∧ ∀ other ∈ before, other.method = request.method → ¬ taken other.template

theorem mem_candidates {t : Template} : t ∈ api.candidates request ↔
    (∃ e ∈ api.endpoints, e.method = request.method ∧ e.template = t) ∨ t ∈ api.extra := by
  rw [Api.candidates,List.mem_append,List.mem_map]
  refine or_congr_left (exists_congr fun e => ?_)
  rw [List.mem_filter,decide_eq_true_iff,and_assoc]

theorem label_eq_unmatched : api.label request = unmatchedRoute ↔ ∀ t ∈ api.candidates request, ¬ t.Matches request := by
  rcases label_cases api request with ⟨hlabel,hnone⟩ | ⟨before,t,after,hsplit,-,hmatch,hlabel⟩
  · exact ⟨fun _ => hnone,fun _ => hlabel⟩
  · constructor
    · exact fun h => absurd (hlabel.symm.trans h) t.text_ne_unmatched
    · exact fun h => absurd hmatch (h t (hsplit ▸ List.mem_append_right before List.mem_cons_self))

/-- The candidates that come before an endpoint are the endpoints of the method declared before it. -/
theorem candidates_split {e : Endpoint} {before after : List Endpoint} (hmethod : e.method = request.method)
    (hsplit : api.endpoints = before ++ e :: after) : ∃ rest, api.candidates request =
      (before.filter fun other => other.method = request.method).map Endpoint.template ++ e.template :: rest := by
  have hkept : (e :: after).filter (fun other => other.method = request.method) =
      e :: after.filter fun other => other.method = request.method := List.filter_cons_of_pos (decide_eq_true hmethod)
  rw [Api.candidates,hsplit,List.filter_append,hkept,List.map_append,List.map_cons,List.append_assoc]
  exact ⟨_,rfl⟩

theorem label_eq_text {e : Endpoint} (hin : e ∈ api.endpoints) (hmethod : e.method = request.method) :
    api.label request = e.template.text ↔ e.template.Matches request ∧ api.First request (Template.Matches · request) e := by
  constructor
  · intro h
    have hmatches : e.template.Matches request := by
      rcases label_cases api request with ⟨hlabel,-⟩ | ⟨-,t,-,-,-,hmatch,hlabel⟩
      · exact absurd (h.symm.trans hlabel) e.template.text_ne_unmatched
      · rw [Template.Matches,← h,hlabel]
        exact hmatch
    obtain ⟨before,after,hsplit⟩ := List.append_of_mem hin
    refine ⟨hmatches,before,after,hsplit,fun other hother hsame hmatch => ?_⟩
    obtain ⟨rest,hcandidates⟩ := candidates_split hmethod hsplit
    -- the first that matches is declared before, so it has another text
    have hsome : (((before.filter fun other => other.method = request.method).map Endpoint.template).find?
        fun t => matchAll (compileTemplate t.text) request.path).isSome = true :=
      List.find?_isSome.mpr ⟨other.template,List.mem_map_of_mem (List.mem_filter.mpr ⟨hother,decide_eq_true hsame⟩),hmatch⟩
    obtain ⟨t,ht⟩ := Option.isSome_iff_exists.mp hsome
    have hlabel := label_eq api request
    rw [hcandidates,List.find?_append,ht] at hlabel
    obtain ⟨first,hfirst,rfl⟩ := List.mem_map.mp (List.mem_of_find?_eq_some ht)
    obtain ⟨hbefore,hfirst⟩ := List.mem_filter.mp hfirst
    have hkey : (first.method,first.template.text) = (e.method,e.template.text) :=
      Prod.ext ((of_decide_eq_true hfirst).trans hmethod.symm) (hlabel.symm.trans h)
    have hdistinct := api.distinct
    rw [hsplit,List.map_append,List.map_cons] at hdistinct
    exact (List.nodup_append.mp hdistinct).2.2 _ (List.mem_map_of_mem hbefore) _ List.mem_cons_self hkey
  · rintro ⟨hmatches,before,after,hsplit,hbefore⟩
    obtain ⟨rest,hcandidates⟩ := candidates_split hmethod hsplit
    have hnone : ((before.filter fun other => other.method = request.method).map Endpoint.template).find?
        (fun t => matchAll (compileTemplate t.text) request.path) = none := by
      refine List.find?_eq_none.mpr fun t ht => ?_
      obtain ⟨other,hother,rfl⟩ := List.mem_map.mp ht
      obtain ⟨hother,hsame⟩ := List.mem_filter.mp hother
      exact hbefore other hother (of_decide_eq_true hsame)
    have hfound : (e.template :: rest).find? (fun t => matchAll (compileTemplate t.text) request.path) = some e.template :=
      List.find?_cons_of_pos hmatches
    rw [label_eq,hcandidates,List.find?_append,hnone,hfound]
    rfl

end Labels

section Exact
variable {router : Router admits} {api : Api admits} {request : Request}

/-- Where constraints are plain, the expressions take just the paths that fit, and the templates that go wrong are one declared
before the one served, and one whose constraint refuses the path. -/
theorem matches_plain (hplain : ∀ t ∈ api.candidates request, ∀ s ∈ t.segments, s.Plain) :
    ((∀ e, router.dispatch api.endpoints request = some e →
        e.template.Matches request ∧ api.First request (Template.Matches · request) e) ∧
      (router.dispatch api.endpoints request = none →
        ((∃ t ∈ api.candidates request, t.Matches request) ↔ ∃ t ∈ api.extra, takes admits t.segments request.parts =
          true))) ↔
      (∀ e, router.dispatch api.endpoints request = some e →
        api.First request (fun t => fits t.segments request.parts = true) e) ∧
      (router.dispatch api.endpoints request = none → (∀ t ∈ api.extra, takes admits t.segments request.parts = false) →
        ∀ t ∈ api.candidates request, fits t.segments request.parts = false) := by
  have hdeclared {e : Endpoint} (he : e ∈ api.endpoints) (hmethod : e.method = request.method) :
    e.template ∈ api.candidates request :=
    mem_candidates.mpr (Or.inl ⟨e,he,hmethod,rfl⟩)
  have hfits {t : Template} (ht : t ∈ api.candidates request) : t.Matches request ↔ fits t.segments request.parts = true :=
    matches_iff_fits (hplain t ht)
  refine and_congr (forall_congr' fun e => imp_congr_right fun hserved => ?_) (imp_congr_right fun hnone => ?_)
  · obtain ⟨he,hmethod,htakes⟩ := router.sound _ _ e hserved
    have hfirst : api.First request (Template.Matches · request) e ↔
      api.First request (fun t => fits t.segments request.parts = true) e := by
      refine exists_congr fun before => exists_congr fun after => and_congr_right fun hsplit => ?_
      refine forall_congr' fun other => forall_congr' fun hother => forall_congr' fun hsame =>
        not_congr (hfits (hdeclared ?_ hsame))
      exact hsplit ▸ List.mem_append_left _ hother
    rw [hfirst]
    exact and_iff_right ((hfits (hdeclared he hmethod)).mpr (fits_of_takes htakes))
  · constructor
    · intro h hquiet t ht
      rw [← Bool.not_eq_true]
      intro hfit
      obtain ⟨other,hother,htakes⟩ := h.mp ⟨t,ht,(hfits ht).mpr hfit⟩
      exact absurd htakes (by rw [hquiet other hother]; decide)
    · intro h
      constructor
      · rintro ⟨t,ht,hmatch⟩
        by_contra hno
        simp only [not_exists,not_and,Bool.not_eq_true] at hno
        exact absurd ((hfits ht).mp hmatch) (by rw [h hno t ht]; decide)
      · rintro ⟨t,ht,htakes⟩
        have hin : t ∈ api.candidates request := mem_candidates.mpr (Or.inr ht)
        exact ⟨t,hin,(hfits hin).mpr (fits_of_takes htakes)⟩

/-- Route labels: the label is exact just if the expression of the endpoint served takes the path and none of an endpoint
of the method declared before it does, and if, where no endpoint is served, an expression takes the path just if a mounted
template does. Where constraints are plain, an expression takes the path just if it fits the template. -/
theorem labelExact_iff (router : Router admits) (api : Api admits) (request : Request) :
    (LabelExact router api request ↔
      (∀ e, router.dispatch api.endpoints request = some e →
        e.template.Matches request ∧ api.First request (Template.Matches · request) e) ∧
      (router.dispatch api.endpoints request = none →
        ((∃ t ∈ api.candidates request, t.Matches request) ↔ ∃ t ∈ api.extra, takes admits t.segments request.parts =
          true))) ∧
    ((∀ t ∈ api.candidates request, ∀ s ∈ t.segments, s.Plain) → (LabelExact router api request ↔
      (∀ e, router.dispatch api.endpoints request = some e →
        api.First request (fun t => fits t.segments request.parts = true) e) ∧
      (router.dispatch api.endpoints request = none → (∀ t ∈ api.extra, takes admits t.segments request.parts = false) →
        ∀ t ∈ api.candidates request, fits t.segments request.parts = false))) := by
  refine and_iff_left_of_imp (fun hexact hplain => hexact.trans (matches_plain hplain)) |>.mpr ?_
  cases hdispatch : router.dispatch api.endpoints request with
  | some e =>
    obtain ⟨he,hmethod,-⟩ := router.sound _ _ e hdispatch
    have hlabel := label_eq_text he hmethod
    constructor
    · rintro ⟨hserved,-⟩
      exact ⟨fun other hother => Option.some.inj hother ▸ hlabel.mp (hserved e hdispatch),fun h => (nomatch h)⟩
    · rintro ⟨hserved,-⟩
      have htext := hlabel.mpr (hserved e rfl)
      refine ⟨fun other hother => Option.some.inj (hdispatch.symm.trans hother) ▸ htext,?_⟩
      constructor
      · exact fun h => absurd (htext.symm.trans h) e.template.text_ne_unmatched
      · exact fun h => absurd (hdispatch.symm.trans h.1) (by simp)
  | none =>
    have hquiet : (∀ t ∈ api.candidates request, ¬ t.Matches request) ↔ ¬ ∃ t ∈ api.candidates request, t.Matches request := by
      simp only [not_exists,not_and]
    have hmounted : (∀ t ∈ api.extra, takes admits t.segments request.parts = false) ↔
        ¬ ∃ t ∈ api.extra, takes admits t.segments request.parts = true := by
      simp only [not_exists,not_and,Bool.not_eq_true]
    rw [LabelExact,hdispatch,label_eq_unmatched,hquiet,hmounted]
    constructor
    · rintro ⟨-,h⟩
      exact ⟨fun e he => (nomatch he),fun _ => not_iff_not.mp (h.trans (and_iff_right rfl))⟩
    · rintro ⟨-,h⟩
      exact ⟨fun e he => (nomatch he),(not_iff_not.mpr (h rfl)).trans (and_iff_right rfl).symm⟩

end Exact

section Shadowing

theorem rank_of_same {s t : Segment} (h : s.Same t) : s.rank = t.rank := by
  cases s with
  | literal text =>
    cases t with
    | literal other => rfl
    | param name constraint => exact absurd h id
    | wildcard => exact absurd h id
  | wildcard =>
    cases t with
    | literal other => exact absurd h id
    | param name constraint => exact absurd h id
    | wildcard => rfl
  | param name constraint =>
    cases t with
    | literal other => exact absurd h id
    | wildcard => exact absurd h id
    | param other constraint' =>
      obtain rfl : constraint = constraint' := h
      cases constraint <;> rfl

theorem ranks_lt_of_preferred {segments others : List Segment} (h : Preferred segments others) :
    segments.map Segment.rank < others.map Segment.rank := by
  induction segments generalizing others with
  | nil => cases others <;> exact absurd h id
  | cons s segments ih =>
    cases others with
    | nil => exact absurd h id
    | cons t others =>
      rw [List.map_cons,List.map_cons,List.cons_lt_cons_iff]
      rcases h with hrank | ⟨hsame,hrest⟩
      · exact Or.inl hrank
      · exact Or.inr ⟨rank_of_same hsame,ih hrest⟩

/-- A router that takes the least of the ranks of the segments. -/
def Router.leastRanks (admits : List Char → List Char → Bool) : Router admits where
  dispatch endpoints request := (endpoints.filter fun e => e.method = request.method ∧
    takes admits e.template.segments request.parts = true).argmin
    fun e => e.template.segments.map Segment.rank
  sound endpoints request e h := by
    obtain ⟨hin,hkind⟩ := List.mem_filter.mp (List.argmin_mem h)
    exact ⟨hin,of_decide_eq_true hkind⟩
  complete endpoints request e hin hmethod htakes := by
    rw [Option.isSome_iff_ne_none]
    intro h
    have hmem : e ∈ endpoints.filter fun e => e.method = request.method ∧
      takes admits e.template.segments request.parts = true :=
      List.mem_filter.mpr ⟨hin,decide_eq_true ⟨hmethod,htakes⟩⟩
    rw [List.argmin_eq_none.mp h] at hmem
    exact absurd hmem List.not_mem_nil
  prefers endpoints request e h other hin hmethod htakes hpreferred :=
    List.not_lt_of_mem_argmin (List.mem_filter.mpr ⟨hin,decide_eq_true ⟨hmethod,htakes⟩⟩) h (ranks_lt_of_preferred hpreferred)

def thingById : Endpoint :=
  ⟨.get,[.literal "things".toList,.param "id".toList none],by decide,by decide,by decide⟩

def searchThings : Endpoint :=
  ⟨.get,[.literal "things".toList,.literal "search".toList],by decide,by decide,by decide⟩

def thingsApi : Api fun _ _ => true where
  endpoints := [thingById,searchThings]
  extra := []
  distinct := by decide
  apart := fun _ _ _ h => absurd h List.not_mem_nil

def searchRequest : Request where
  method := .get
  parts := ["things".toList,"search".toList]
  query := "?q=a".toList
  served := Or.inl rfl
  nonempty := by decide
  plain := by simp [isLineTerminator]
  query_marked := Or.inr rfl

/-- A search is booked to the template of the parameter, whichever router serves it. -/
theorem search_booked_elsewhere : Nonempty (Router fun _ _ => true) ∧
    ∀ router : Router fun _ _ => true, router.dispatch thingsApi.endpoints searchRequest = some searchThings ∧
      thingsApi.label searchRequest = "/things/:id".toList ∧ ¬ LabelExact router thingsApi searchRequest := by
  refine ⟨⟨.leastRanks _⟩,fun router => ?_⟩
  have hlabel : thingsApi.label searchRequest = "/things/:id".toList := by decide +kernel
  have hserved : router.dispatch thingsApi.endpoints searchRequest = some searchThings := by
    have hsome := router.complete thingsApi.endpoints searchRequest searchThings
      (List.mem_cons_of_mem _ List.mem_cons_self) rfl rfl
    obtain ⟨e,he⟩ := Option.isSome_iff_exists.mp hsome
    obtain ⟨hin,-,-⟩ := router.sound _ _ e he
    rcases List.mem_cons.mp hin with rfl | hin
    · have hprefers := router.prefers _ _ _ he searchThings (List.mem_cons_of_mem _ List.mem_cons_self) rfl rfl
      exact absurd (Or.inr ⟨rfl,Or.inl (by decide)⟩) hprefers
    · rw [he,List.mem_singleton.mp hin]
  refine ⟨hserved,hlabel,fun h => ?_⟩
  have htext := h.1 searchThings hserved
  rw [hlabel] at htext
  exact absurd htext (by decide +kernel)

end Shadowing

end StructureAi.Http.Routes
