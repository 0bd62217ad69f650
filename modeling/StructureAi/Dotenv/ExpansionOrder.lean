import StructureAi.Dotenv.Expand

/-! # The order of expansion

However the entries are ordered, expansion finds for each of them what it expands to on its own, and fails where
one of them comes back to an entry that it is being expanded for.
-/
namespace StructureAi.Dotenv
open StructureAi.Foundation
variable {entries entries' : List Expandable} {options : ExpandOptions}

theorem rawEntries_concat (entries : List Expandable) (last : Expandable) (name : JsString) :
    valueAt name (rawEntries (entries ++ [last])) = if name =
      last.key then some last else valueAt name (rawEntries entries) := by
  unfold rawEntries valueAt
  rw [List.foldl_append,List.foldl_cons,List.foldl_nil,lookup_put]

theorem rawEntries_iff (hkeys : (entries.map Expandable.key).Nodup) {name : JsString} {entry : Expandable} :
    valueAt name (rawEntries entries) = some entry ↔ entry ∈ entries ∧ entry.key = name := by
  refine ⟨mem_of_rawEntries,?_⟩
  rintro ⟨hin,rfl⟩
  induction entries using List.reverseRecOn with
  | nil => exact absurd hin List.not_mem_nil
  | append_singleton entries last ih =>
    rw [List.map_append,List.nodup_append] at hkeys
    obtain ⟨hkeys,-,hlast⟩ := hkeys
    rw [rawEntries_concat]
    rcases List.mem_append.mp hin with hin | hin
    · have hne := hlast entry.key (List.mem_map_of_mem hin) last.key List.mem_cons_self
      rw [if_neg hne]
      exact ih hkeys hin
    · rw [List.mem_singleton.mp hin,if_pos rfl]

theorem define_of_mem {entry : Expandable} (h : entry ∈ entries) : ∃ query, (expansions entries options).define entry.key =
    some query := by
  induction entries using List.reverseRecOn with
  | nil => exact absurd h List.not_mem_nil
  | append_singleton entries last ih =>
    change ∃ query, (valueAt entry.key (rawEntries (entries ++ [last]))).map (resolution options) = some query
    rw [rawEntries_concat]
    split
    · exact ⟨_,rfl⟩
    · rename_i hne
      apply ih
      rcases List.mem_append.mp h with h | h
      · exact h
      · exact absurd (congrArg Expandable.key (List.mem_singleton.mp h)) hne

theorem evaluate_perm (hkeys : (entries.map Expandable.key).Nodup) (hperm : entries'.Perm entries) (name : JsString) :
    (expansions entries' options).evaluate [] name = (expansions entries options).evaluate [] name := by
  apply Definitions.evaluate_congr
  intro name
  have hkeys' : (entries'.map Expandable.key).Nodup := (hperm.map Expandable.key).nodup_iff.mpr hkeys
  have hsame : valueAt name (rawEntries entries') = valueAt name (rawEntries entries) := by
    ext entry
    rw [rawEntries_iff hkeys',rawEntries_iff hkeys,hperm.mem_iff]
  exact congrArg (Option.map (resolution options)) hsame

/-- The entries are collected with the values they are found to have, or the first of them that fails fails all. -/
theorem collect_cases {find : JsString → Except JsString (Option JsString)} (hkeys : (entries.map Expandable.key).Nodup)
    (out : List (JsString × JsString)) (hfresh : ∀ entry ∈ entries, valueAt entry.key out = none) :
    (∃ values, (collect entries out).interpret find = .ok values ∧ values.map Prod.fst = out.map Prod.fst ++
      entries.map Expandable.key ∧
      (∀ k, k ∉ entries.map Expandable.key → valueAt k values = valueAt k out) ∧
      ∀ entry ∈ entries, ∃ value, find entry.key = .ok value ∧ valueAt entry.key values = some (value.getD [])) ∨
    ∃ name, (collect entries out).interpret find = .error name ∧ ∃ entry ∈ entries, find entry.key = .error name := by
  induction entries generalizing out with
  | nil =>
    refine Or.inl ⟨out,rfl,(List.append_nil _).symm,fun _ _ => rfl,?_⟩
    intro entry h
    exact absurd h List.not_mem_nil
  | cons entry entries ih =>
    obtain ⟨hentry,hkeys⟩ := List.nodup_cons.mp hkeys
    have hask : (collect (entry :: entries) out).interpret find =
        find entry.key >>= fun value => (collect entries (put entry.key (value.getD []) out)).interpret find := rfl
    rw [hask]
    cases hfind : find entry.key with
    | error name => exact Or.inr ⟨name,rfl,entry,List.mem_cons_self,hfind⟩
    | ok value =>
      have hnone : valueAt entry.key out = none := hfresh entry List.mem_cons_self
      have hput : ∀ k, valueAt k (put entry.key (value.getD []) out) = if k =
        entry.key then some (value.getD []) else valueAt k out :=
        fun k => lookup_put _ _ _ k
      have hfresh' : ∀ later ∈ entries, valueAt later.key (put entry.key (value.getD []) out) = none := by
        intro later hlater
        have hne : later.key ≠ entry.key := fun heq => hentry (heq ▸ List.mem_map_of_mem hlater)
        rw [hput,if_neg hne]
        exact hfresh later (List.mem_cons_of_mem entry hlater)
      rcases ih hkeys _ hfresh' with ⟨values,hrun,hnames,hothers,hvalues⟩ | ⟨name,hrun,later,hlater,hfails⟩
      · refine Or.inl ⟨values,hrun,?_,?_,?_⟩
        · rw [hnames,keys_put_new hnone,List.append_assoc]
          rfl
        · intro k hk
          obtain ⟨hne,hrest⟩ := not_or.mp (mt List.mem_cons.mpr hk)
          rw [hothers k hrest,hput,if_neg hne]
        · intro later hlater
          rcases List.mem_cons.mp hlater with rfl | hlater
          · exact ⟨value,hfind,by rw [hothers _ hentry,hput,if_pos rfl]⟩
          · exact hvalues later hlater
      · exact Or.inr ⟨name,hrun,later,List.mem_cons_of_mem entry hlater,hfails⟩

/-- With fuel for the entries, expansion is what comes of evaluating them one by one. -/
theorem expand_eq {fuel : ℕ} (h : entries.length < fuel) : expand fuel entries options =
    some (((collect entries []).interpret ((expansions entries options).evaluate [])).mapError expansionCycle) := by
  have hfuel : (expansions entries options).names.length < fuel := by
    change (entries.map Expandable.key).length < fuel
    rwa [List.length_map]
  unfold expand
  rw [Definitions.interpret_fetch _ _ hfuel]
  rfl

/-- What expansion comes to, by the evaluation of the entries on their own. -/
structure Expands (entries : List Expandable) (options : ExpandOptions)
    (outcome : Except DotenvError (List (JsString × JsString))) :
    Prop where
  ends : ∀ fuel, entries.length < fuel → expand fuel entries options = some outcome
  values : ∀ values, outcome = .ok values → values.map Prod.fst = entries.map Expandable.key ∧ ∀ entry ∈ entries, ∃ value,
    valueAt entry.key values = some value ∧ (expansions entries options).evaluate [] entry.key = .ok (some value)
  fails : (∃ e, outcome = .error e) ↔ ∃ entry ∈ entries, ∃ name, (expansions entries options).ReachesBack [] entry.key name

theorem expands (hkeys : (entries.map Expandable.key).Nodup) (options : ExpandOptions) :
    ∃ outcome, Expands entries options outcome := by
  refine ⟨_,⟨fun fuel h => expand_eq h,?_,?_⟩⟩
  · intro values houtcome
    rcases collect_cases hkeys [] fun _ _ => rfl with ⟨values',hrun,hnames,-,hvalues⟩ | ⟨name,hrun,-⟩
    · rw [hrun] at houtcome
      obtain rfl := Except.ok.inj houtcome
      refine ⟨hnames,?_⟩
      intro entry hentry
      obtain ⟨value,hfind,hvalue⟩ := hvalues entry hentry
      obtain ⟨query,hdefine⟩ := define_of_mem hentry
      obtain ⟨v,rfl⟩ := Definitions.evaluate_defined hdefine hfind
      exact ⟨v,hvalue,hfind⟩
    · rw [hrun] at houtcome
      cases houtcome
  · rcases collect_cases hkeys [] fun _ _ => rfl with ⟨values,hrun,-,-,hvalues⟩ | ⟨name,hrun,entry,hentry,hfails⟩
    · rw [hrun]
      refine iff_of_false (fun ⟨e,he⟩ => by cases he) ?_
      rintro ⟨entry,hentry,name,hname⟩
      obtain ⟨value,hfind,-⟩ := hvalues entry hentry
      rw [Definitions.evaluate_error_iff.mpr hname] at hfind
      cases hfind
    · rw [hrun]
      exact iff_of_true ⟨_,rfl⟩ ⟨entry,hentry,name,Definitions.evaluate_error_iff.mp hfails⟩

/-- Expansion ends, finds what every entry expands to on its own, fails where one of them does, and does not depend
on the order of the entries. -/
theorem expansion_order_independent (entries : List Expandable) (options : ExpandOptions)
    (hkeys : (entries.map Expandable.key).Nodup) : ∃ outcome, Expands entries options outcome ∧
      ∀ entries', entries'.Perm entries → ∃ outcome', Expands entries' options outcome' ∧
        ((∃ e, outcome' = .error e) ↔ ∃ e, outcome = .error e) ∧
        ∀ values values', outcome = .ok values → outcome' = .ok values' → ∀ key, valueAt key values' = valueAt key values := by
  obtain ⟨outcome,h⟩ := expands hkeys options
  refine ⟨outcome,h,?_⟩
  intro entries' hperm
  have hkeys' : (entries'.map Expandable.key).Nodup := (hperm.map Expandable.key).nodup_iff.mpr hkeys
  obtain ⟨outcome',h'⟩ := expands hkeys' options
  have hevaluate : ∀ name, (expansions entries' options).evaluate [] name = (expansions entries options).evaluate [] name :=
    evaluate_perm hkeys hperm
  refine ⟨outcome',h',?_,?_⟩
  · rw [h'.fails,h.fails]
    simp only [← Definitions.evaluate_error_iff,hevaluate,hperm.mem_iff]
  · rintro values values' rfl rfl key
    obtain ⟨hnames,hvalues⟩ := h.values values rfl
    obtain ⟨hnames',hvalues'⟩ := h'.values values' rfl
    by_cases hkey : key ∈ entries.map Expandable.key
    · obtain ⟨entry,hentry,rfl⟩ := List.mem_map.mp hkey
      obtain ⟨value,hvalue,heval⟩ := hvalues entry hentry
      obtain ⟨value',hvalue',heval'⟩ := hvalues' entry (hperm.mem_iff.mpr hentry)
      rw [hevaluate,heval] at heval'
      rw [hvalue,hvalue',Option.some.inj (Except.ok.inj heval')]
    · have hkey' : key ∉ entries'.map Expandable.key := fun h => hkey ((hperm.map Expandable.key).mem_iff.mp h)
      have hnone : valueAt key values = none := lookup_eq_none.mpr (hnames ▸ hkey)
      have hnone' : valueAt key values' = none := lookup_eq_none.mpr (hnames' ▸ hkey')
      rw [hnone,hnone']

/-- Of an entry that refers to itself in a default that is not taken. -/
theorem expansion_order_independent_default : ∃ entries options outcome, Expands entries options outcome ∧
    expand 3 entries options = some (.ok [(units ['A'],units ['b','!']),(units ['B'],units ['b'])]) := by
  let entries : List Expandable := [⟨units ['A'],units "${B:-$A}!".toList,.none⟩,⟨units ['B'],units ['b'],.single⟩]
  obtain ⟨outcome,h,-⟩ := expansion_order_independent entries ⟨fun _ => none,false⟩ (by decide)
  refine ⟨entries,⟨fun _ => none,false⟩,outcome,h,?_⟩
  decide +kernel

end StructureAi.Dotenv
