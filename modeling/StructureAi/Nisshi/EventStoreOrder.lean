import StructureAi.Nisshi.EventStore

/-! # The order in which a topic is read

`readAll` gives the records of the topic as they stand there, `read` sorts those of one stream and
drops what it has seen. So the first is in order just where every request wrote, of each stream,
later versions than the topic held.
-/
namespace StructureAi.Nisshi
open StructureAi.Foundation StructureAi.EventSourcing

section Envelopes

theorem asInteger_ofInt (z : ℤ) : asInteger (.num (Decimal.ofInt z)) = some z := by
  have hv : (Decimal.ofInt z).value = z := by simp [Decimal.ofInt]
  simp [asInteger,Json.asNumber,hv]

theorem decode_encode (e : WireEvent) (streamName : String) : decodeWireEvent (encodeWireEvent e) streamName = .ok e := by
  have hn : (e.fields.map Prod.fst).Nodup := by
    simp only [WireEvent.fields,List.map_cons,List.map_nil]
    decide
  have hget : ∀ {k v}, (k,v) ∈ e.fields → (Json.ofFields e.fields).get k = v := fun hk => Json.get_ofFields hn hk
  have h1 := hget (show ("type",some (.str e.type)) ∈ e.fields by simp [WireEvent.fields])
  have h2 := hget (show ("schemaVersion",some (.num (Decimal.ofInt e.schemaVersion))) ∈ e.fields by simp [WireEvent.fields])
  have h3 := hget (show ("version",some (.num (Decimal.ofInt e.version))) ∈ e.fields by simp [WireEvent.fields])
  have h4 := hget (show ("payload",some e.payload) ∈ e.fields by simp [WireEvent.fields])
  have h5 := hget (show ("metadata",some e.metadata.toJson) ∈ e.fields by simp [WireEvent.fields])
  unfold decodeWireEvent encodeWireEvent
  rw [Json.parse_stringify]
  rw [Json.ofFields] at h1 h2 h3 h4 h5 ⊢
  simp only [h1,h2,h3,h4,h5,Option.bind_some,Json.asString,asInteger_ofInt,StoredEventMetadata.ofJson_toJson,Option.getD_some]

end Envelopes

section Records

def Encoded (r : TopicRecord) : Prop := ∃ e, r.value = encodeWireEvent e

def versionOf (r : TopicRecord) : Option ℤ := (decodeWireEvent r.value r.key).toOption.map WireEvent.version

/-- The first record, if it is of the same stream, is of an earlier version. -/
def before (a b : TopicRecord) : Bool :=
  a.key ≠ b.key || match versionOf a,versionOf b with
    | some v,some w => decide (v < w)
    | _,_ => true

def Ordered (rs : List TopicRecord) : Prop := rs.Pairwise fun a b => before a b = true

def stored (offset : ℤ) (rs : List TopicRecord) : List StoredEvent :=
  (fetchedAt offset rs).filterMap fun r => (decodeRecord r).toOption

/-- Each event of a stream comes once, in the order of the versions. -/
structure OnceInOrder (events : List StoredEvent) : Prop where
  once : (events.map fun e => (e.streamName,e.version)).Nodup
  inOrder : events.Pairwise fun a b => a.streamName = b.streamName → a.version < b.version

variable {offset : ℤ} {rs : List TopicRecord}

theorem fetchedAt_append (offset : ℤ) (rs rs' : List TopicRecord) :
    fetchedAt offset (rs ++ rs') = fetchedAt offset rs ++ fetchedAt (offset + rs.length) rs' := by
  induction rs generalizing offset with
  | nil => simp [fetchedAt]
  | cons r rs ih =>
    have hlen : offset + 1 + (rs.length : ℤ) = offset + ((r :: rs).length : ℤ) := by
      rw [List.length_cons]
      push_cast
      ring
    rw [List.cons_append,fetchedAt,ih,hlen,fetchedAt,List.cons_append]

theorem stored_append (offset : ℤ) (rs rs' : List TopicRecord) :
    stored offset (rs ++ rs') = stored offset rs ++ stored (offset + rs.length) rs' := by
  rw [stored,fetchedAt_append,List.filterMap_append]
  rfl

theorem getLast?_fetchedAt (hne : rs ≠ []) :
    ∃ last, (fetchedAt offset rs).getLast? = some last ∧ last.offset + 1 = offset + rs.length := by
  obtain ⟨rs,r,rfl⟩ := List.eq_nil_or_concat' rs |>.resolve_left hne
  refine ⟨⟨offset + rs.length,r⟩,?_,?_⟩
  · rw [fetchedAt_append]
    exact List.getLast?_concat
  · rw [List.length_append,List.length_singleton]
    push_cast
    ring

theorem decodeRecord_encoded {r : TopicRecord} {e : WireEvent} (h : r.value = encodeWireEvent e) (offset : ℤ) :
    decodeRecord ⟨offset,r⟩ = .ok (storedEvent offset r.key e) := by
  rw [decodeRecord,h,decode_encode]

theorem stored_cons {r : TopicRecord} {e : WireEvent} (h : r.value = encodeWireEvent e) :
    stored offset (r :: rs) = storedEvent offset r.key e :: stored (offset + 1) rs := by
  rw [stored,fetchedAt,List.filterMap_cons,decodeRecord_encoded h]
  rfl

theorem decodeRecords_eq (h : ∀ r ∈ rs, Encoded r) : decodeRecords (fetchedAt offset rs) = .ok (stored offset rs) := by
  induction rs generalizing offset with
  | nil => rfl
  | cons r rs ih =>
    obtain ⟨e,he⟩ := h r List.mem_cons_self
    rw [fetchedAt,decodeRecords,decodeRecord_encoded he,ih fun r' hr' => h r' (List.mem_cons_of_mem r hr'),stored_cons he]
    rfl

theorem versionOf_encoded {r : TopicRecord} {e : WireEvent} (h : r.value = encodeWireEvent e) : versionOf r =
    some e.version := by
  rw [versionOf,h,decode_encode]
  rfl

theorem mem_stored {x : StoredEvent} (h : ∀ r ∈ rs, Encoded r) (hx : x ∈ stored offset rs) :
    ∃ r ∈ rs, r.key = x.streamName ∧ versionOf r = some x.version := by
  induction rs generalizing offset with
  | nil => cases hx
  | cons r rs ih =>
    obtain ⟨e,he⟩ := h r List.mem_cons_self
    rw [stored_cons he,List.mem_cons] at hx
    rcases hx with rfl | hx
    · exact ⟨r,List.mem_cons_self,rfl,versionOf_encoded he⟩
    · obtain ⟨r',hr',h'⟩ := ih (fun r' hr' => h r' (List.mem_cons_of_mem r hr')) hx
      exact ⟨r',List.mem_cons_of_mem r hr',h'⟩

theorem exists_mem_stored {r : TopicRecord} (h : ∀ r ∈ rs, Encoded r) (hr : r ∈ rs) :
    ∃ x ∈ stored offset rs, x.streamName = r.key ∧ versionOf r = some x.version := by
  induction rs generalizing offset with
  | nil => cases hr
  | cons r' rs ih =>
    obtain ⟨e,he⟩ := h r' List.mem_cons_self
    rw [stored_cons he]
    rcases List.mem_cons.mp hr with rfl | hr
    · exact ⟨_,List.mem_cons_self,rfl,versionOf_encoded he⟩
    · obtain ⟨x,hx,hx'⟩ := ih (fun r hr => h r (List.mem_cons_of_mem r' hr)) hr
      exact ⟨x,List.mem_cons_of_mem _ hx,hx'⟩

theorem before_iff {a b : TopicRecord} {v w : ℤ} (ha : versionOf a = some v) (hb : versionOf b = some w) :
    before a b = true ↔ (a.key = b.key → v < w) := by
  rw [before,ha,hb]
  simp only [ne_eq,decide_not,Bool.or_eq_true,Bool.not_eq_true',decide_eq_false_iff_not,decide_eq_true_eq]
  exact imp_iff_not_or.symm

theorem stored_inOrder (h : ∀ r ∈ rs, Encoded r) :
    ((stored offset rs).Pairwise fun a b => a.streamName = b.streamName → a.version < b.version) ↔ Ordered rs := by
  induction rs generalizing offset with
  | nil => exact iff_of_true List.Pairwise.nil List.Pairwise.nil
  | cons r rs ih =>
    obtain ⟨e,he⟩ := h r List.mem_cons_self
    have hrs : ∀ r' ∈ rs, Encoded r' := fun r' hr' => h r' (List.mem_cons_of_mem r hr')
    have hcons : Ordered (r :: rs) ↔ (∀ r' ∈ rs, before r r' = true) ∧ Ordered rs := List.pairwise_cons
    rw [stored_cons he,List.pairwise_cons,ih hrs,hcons]
    refine and_congr_left fun _ => ⟨?_,?_⟩
    · intro hlt r' hr'
      obtain ⟨x,hx,hkey,hv⟩ := @exists_mem_stored (offset + 1) _ _ hrs hr'
      rw [before_iff (versionOf_encoded he) hv]
      intro hk
      exact hlt x hx (hk.trans hkey.symm)
    · intro hlt x hx hk
      obtain ⟨r',hr',hkey,hv⟩ := mem_stored hrs hx
      exact (before_iff (versionOf_encoded he) hv).mp (hlt r' hr') (hk.trans hkey.symm)

theorem onceInOrder_iff {events : List StoredEvent} :
    OnceInOrder events ↔ events.Pairwise fun a b => a.streamName = b.streamName → a.version < b.version := by
  constructor
  · exact OnceInOrder.inOrder
  · intro h
    refine ⟨?_,h⟩
    rw [List.Nodup,List.pairwise_map]
    refine h.imp ?_
    intro a b hab heq
    obtain ⟨hs,hv⟩ := Prod.mk.inj heq
    have hlt := hab hs
    omega

theorem OnceInOrder.sublist {events events' : List StoredEvent} (h : OnceInOrder events) (hs : events'.Sublist events) :
    OnceInOrder events' :=
  onceInOrder_iff.mpr (h.inOrder.sublist hs)

end Records

section Reading
variable {topic : List TopicRecord} {more : ℤ → ℕ}

/-- The first `n` if there is a limit. -/
def bounded (limit : Option ℕ) (events : List StoredEvent) : List StoredEvent :=
  match limit with
  | none => events
  | some n => events.take n

theorem fetch_cases {offset : ℕ} (ho : offset ≤ topic.length) :
    ∃ n, offset + n ≤ topic.length ∧ (n = 0 → offset = topic.length) ∧
      fetch topic more offset = .ok ⟨fetchedAt offset ((topic.drop offset).take n),topic.length⟩ := by
  refine ⟨min (more offset + 1) (topic.length - offset),by omega,by omega,?_⟩
  have hrange : ¬ ((offset : ℤ) < 0 ∨ (topic.length : ℤ) < offset) := by omega
  rw [fetch,if_neg hrange,Int.toNat_natCast,← List.length_drop,List.take_eq_take_iff.mpr]
  omega

theorem drop_split {n offset : ℕ} : topic.drop offset = (topic.drop offset).take n ++ topic.drop (offset + n) := by
  rw [← List.drop_drop,List.take_append_drop]

/-- The loop collects what is kept of the rest of the topic, as far as the limit allows. -/
theorem collect_eq {keep : StoredEvent → Bool} {limit : Option ℕ} (h : ∀ r ∈ topic, Encoded r) {fuel offset : ℕ}
    (ho : offset ≤ topic.length) (hf : topic.length - offset < fuel) (events : List StoredEvent) :
    ∃ out, collect topic more keep limit fuel offset events = .ok out ∧
      bounded limit out = bounded limit (events ++ (stored offset (topic.drop offset)).filter keep) := by
  induction fuel generalizing offset events with
  | zero => omega
  | succ fuel ih =>
    cases hfull : limit.any fun n => n ≤ events.length with
    | true =>
      obtain ⟨n,rfl,hn⟩ : ∃ n, limit = some n ∧ n ≤ events.length := by
        cases limit with
        | none => cases hfull
        | some n => exact ⟨n,rfl,of_decide_eq_true hfull⟩
      refine ⟨events,by rw [collect,if_pos hfull],?_⟩
      exact (List.take_append_of_le_length hn).symm
    | false =>
      obtain ⟨n,hn,hzero,hfetch⟩ := @fetch_cases _ more _ ho
      have hlen : ((topic.drop offset).take n).length = n := by
        rw [List.length_take,List.length_drop]
        omega
      have hpage : ∀ r ∈ (topic.drop offset).take n, Encoded r :=
        fun r hr => h r (List.mem_of_mem_drop (List.mem_of_mem_take hr))
      have hsplit : stored offset (topic.drop offset) =
          stored offset ((topic.drop offset).take n) ++ stored (offset + n : ℕ) (topic.drop (offset + n)) := by
        conv_lhs => rw [drop_split (n := n),stored_append,hlen]
        push_cast
        rfl
      rw [collect,hfull,hfetch]
      cases n with
      | zero =>
        have hend : topic.drop offset = [] := List.drop_eq_nil_of_le (hzero rfl).ge
        refine ⟨events,?_,?_⟩
        · simp [fetchedAt]
        · simp [hend,stored,fetchedAt]
      | succ n =>
        have hne : (topic.drop offset).take (n + 1) ≠ [] := by
          rw [← List.length_pos_iff,hlen]
          omega
        obtain ⟨last,hlast,hoffset⟩ := @getLast?_fetchedAt (offset : ℤ) _ hne
        have hnext : last.offset + 1 = ((offset + (n + 1) : ℕ) : ℤ) := by
          rw [hoffset,hlen]
          push_cast
          rfl
        simp only [hlast,decodeRecords_eq hpage,hnext]
        by_cases hdone : (topic.length : ℤ) ≤ ((offset + (n + 1) : ℕ) : ℤ)
        · have hrest : topic.drop (offset + (n + 1)) = [] := List.drop_eq_nil_of_le (by omega)
          refine ⟨_,if_pos hdone,?_⟩
          rw [hsplit,hrest]
          simp [stored,fetchedAt]
        · rw [if_neg hdone]
          obtain ⟨out,hout,hbounded⟩ := ih hn (by omega) (events ++
            (stored offset ((topic.drop offset).take (n + 1))).filter keep)
          refine ⟨out,hout,?_⟩
          rw [hbounded,hsplit,List.filter_append,List.append_assoc]

theorem position_stored {rs : List TopicRecord} {offset : ℤ} (h : ∀ r ∈ rs, Encoded r) {x : StoredEvent}
    (hx : x ∈ stored offset rs) :
    offset < x.position ∧ x.position ≤ offset + rs.length := by
  induction rs generalizing offset with
  | nil => cases hx
  | cons r rs ih =>
    obtain ⟨e,he⟩ := h r List.mem_cons_self
    rw [stored_cons he,List.mem_cons] at hx
    rw [List.length_cons]
    push_cast
    rcases hx with rfl | hx
    · simp only [storedEvent]
      omega
    · have hx := ih (fun r' hr' => h r' (List.mem_cons_of_mem r hr')) hx
      omega

/-- The events at the positions from one on are those of the records from its offset on. -/
theorem filter_stored (h : ∀ r ∈ topic, Encoded r) {offset : ℕ} (ho : offset ≤ topic.length) (keep : StoredEvent → Bool) :
    ((stored 0 topic).filter fun e => decide ((offset : ℤ) + 1 ≤ e.position ∧ keep e = true)) =
      (stored offset (topic.drop offset)).filter keep := by
  have hlen : (topic.take offset).length = offset := List.length_take_of_le ho
  have hearly : ∀ x ∈ stored 0 (topic.take offset), ¬ decide ((offset : ℤ) + 1 ≤ x.position ∧ keep x = true) = true := by
    intro x hx
    have hx := (position_stored (fun r hr => h r (List.mem_of_mem_take hr)) hx).2
    rw [hlen] at hx
    simp only [decide_eq_true_eq,not_and_or]
    left
    omega
  conv_lhs => rw [← List.take_append_drop offset topic,stored_append,List.filter_append,List.filter_eq_nil_iff.mpr hearly]
  rw [List.nil_append,hlen,zero_add]
  apply List.filter_congr
  intro x hx
  have hx := (position_stored (fun r hr => h r (List.mem_of_mem_drop hr)) hx).1
  have hle : (offset : ℤ) + 1 ≤ x.position := by omega
  simp [hle]

/-- Within the topic `readAll` reads the log that the topic stands for. -/
theorem readAll_eq (h : ∀ r ∈ topic, Encoded r) {options : ReadAllOptions} {offset : ℕ} (ho : offset ≤ topic.length)
    (hfrom : options.fromPosition.getD 1 = offset + 1) : readAll topic more options =
      .ok (readAllOf (stored 0 topic) options) := by
  obtain ⟨out,hout,hbounded⟩ := @collect_eq _ more (inPartitions (readAllPartitions options.partition))
    options.batchSize h (topic.length + 1) _ ho (by omega) []
  have hoffset : options.fromPosition.getD 1 - 1 = (offset : ℤ) := by omega
  rw [readAll,hoffset]
  simp only [hout,bind,Except.bind,pure,Except.pure]
  have hof : readAllOf (stored 0 topic) options = bounded options.batchSize
      ((stored offset (topic.drop offset)).filter (inPartitions (readAllPartitions options.partition))) := by
    rw [← filter_stored h ho,readAllOf,hfrom]
    rfl
  rw [hof]
  exact congrArg Except.ok hbounded

theorem readAll_outside {options : ReadAllOptions} {events : List StoredEvent}
    (hfrom : options.fromPosition.getD 1 < 1 ∨ topic.length + 1 < options.fromPosition.getD 1)
    (hread : readAll topic more options = .ok events) : events = [] := by
  have hfetch : fetch topic more (options.fromPosition.getD 1 - 1) = .error (.persistence ⟨"nisshi.fetch"⟩) := by
    rw [fetch,if_pos]
    omega
  rw [readAll] at hread
  simp only [collect,hfetch] at hread
  split at hread
  next hlimit =>
    obtain ⟨n,hn⟩ : ∃ n, options.batchSize = some n := by
      cases hlimit' : options.batchSize with
      | none =>
        rw [hlimit'] at hlimit
        cases hlimit
      | some n => exact ⟨n,rfl⟩
    rw [hn] at hread
    obtain rfl := Except.ok.inj hread
    exact List.take_nil
  next => cases hread

theorem readAllOf_sublist (log : List StoredEvent) (options : ReadAllOptions) : (readAllOf log options).Sublist log := by
  unfold readAllOf
  split
  · exact List.filter_sublist
  · exact (List.take_sublist _ _).trans List.filter_sublist

theorem readAll_inOrder (h : ∀ r ∈ topic, Encoded r) :
    (∀ more options events, readAll topic more options = .ok events → OnceInOrder events) ↔ Ordered topic := by
  rw [← @stored_inOrder 0 _ h,← onceInOrder_iff]
  constructor
  · intro hall
    have hread : readAll topic (fun _ => 0) {} = .ok (stored 0 topic) := by
      rw [readAll_eq h (Nat.zero_le _) rfl]
      have hkeep : ∀ e ∈ stored 0 topic, decide ((1 : ℤ) ≤ e.position ∧ inPartitions (readAllPartitions none) e = true) =
        true := by
        intro e he
        have he := (position_stored h he).1
        simp only [decide_eq_true_eq]
        exact ⟨by omega,rfl⟩
      exact congrArg Except.ok (List.filter_eq_self.mpr hkeep)
    exact hall _ _ _ hread
  · intro hordered more options events hread
    by_cases hfrom : options.fromPosition.getD 1 < 1 ∨ topic.length + 1 < options.fromPosition.getD 1
    · rw [readAll_outside hfrom hread]
      exact ⟨List.Pairwise.nil,List.Pairwise.nil⟩
    · push Not at hfrom
      have hoffset : options.fromPosition.getD 1 = ((options.fromPosition.getD 1 - 1).toNat : ℤ) + 1 := by omega
      rw [readAll_eq h (by omega) hoffset] at hread
      obtain rfl := Except.ok.inj hread
      exact hordered.sublist (readAllOf_sublist _ _)

/-- The events a reader of one stream takes are of distinct versions that it has not seen. -/
theorem unseen_nodup {streamName : String} {fromVersion : ℤ} {seen : List ℤ} {records : List FetchedTopicRecord}
    {events : List StoredEvent}
    (h : unseen streamName fromVersion seen records = .ok events) :
    (∀ e ∈ events, e.version ∉ seen) ∧ (events.map StoredEvent.version).Nodup := by
  induction records generalizing seen events with
  | nil =>
    obtain rfl := Except.ok.inj h
    exact ⟨fun e he => absurd he List.not_mem_nil,List.nodup_nil⟩
  | cons r rs ih =>
    rw [unseen] at h
    split at h
    next => exact ih h
    next =>
      cases hd : decodeRecord r with
      | error e =>
        rw [hd] at h
        cases h
      | ok event =>
        rw [hd] at h
        change (if _ then _ else _) = _ at h
        split at h
        next => exact ih h
        next hnew =>
          cases hrest : unseen streamName fromVersion (event.version :: seen) rs with
          | error e =>
            rw [hrest] at h
            cases h
          | ok rest =>
            rw [hrest] at h
            obtain rfl := Except.ok.inj h
            obtain ⟨hseen,hnodup⟩ := ih hrest
            refine ⟨?_,?_⟩
            · intro e he
              rcases List.mem_cons.mp he with rfl | he
              · exact fun hin => hnew (Or.inr hin)
              · exact fun hin => hseen e he (List.mem_cons_of_mem _ hin)
            · refine List.nodup_cons.mpr ⟨?_,hnodup⟩
              intro hin
              obtain ⟨e,he,hv⟩ := List.mem_map.mp hin
              exact hseen e he (hv ▸ List.mem_cons_self)

/-- `read` is in order whatever the topic holds. -/
theorem read_inOrder {streamName : String} {fromVersion : Option ℤ} {events : List StoredEvent}
    (h : read topic more streamName fromVersion = .ok events) : OnceInOrder events := by
  obtain ⟨records,found,hfound,rfl⟩ : ∃ records found, unseen streamName (fromVersion.getD 1) [] records = .ok found ∧
      events = orderBy StoredEvent.version found := by
    rw [read] at h
    cases hrecords : readTopic topic more (topic.length + 1) 0 [] with
    | error e =>
      rw [hrecords] at h
      cases h
    | ok records =>
      rw [hrecords] at h
      change (unseen streamName (fromVersion.getD 1) [] records >>= _) = _ at h
      cases hfound : unseen streamName (fromVersion.getD 1) [] records with
      | error e =>
        rw [hfound] at h
        cases h
      | ok found =>
        rw [hfound] at h
        exact ⟨records,found,hfound,(Except.ok.inj h).symm⟩
  have hperm : (orderBy StoredEvent.version found).Perm found := List.perm_insertionSort _ _
  have hnodup : ((orderBy StoredEvent.version found).map StoredEvent.version).Nodup :=
    (hperm.map _).nodup_iff.mpr (unseen_nodup hfound).2
  have hsorted : (orderBy StoredEvent.version found).Pairwise fun a b => a.version ≤ b.version :=
    List.pairwise_insertionSort _ _
  rw [List.Nodup,List.pairwise_map] at hnodup
  refine onceInOrder_iff.mpr ((hsorted.and hnodup).imp ?_)
  intro a b hab _
  exact lt_of_le_of_ne hab.1 hab.2

end Reading
section Runs
open NisshiState

theorem encoded_recordsFrom (streamName : String) (version : ℤ) (events : List AppendEvent) :
    ∀ r ∈ recordsFrom streamName version events, Encoded r := by
  induction events generalizing version with
  | nil =>
    intro r hr
    cases hr
  | cons event events ih =>
    intro r hr
    rcases List.mem_cons.mp hr with rfl | hr
    · exact ⟨_,rfl⟩
    · exact ih _ r hr

theorem lt_of_mem_recordsFrom {streamName : String} {version : ℤ} {events : List AppendEvent} {r : TopicRecord}
    (hr : r ∈ recordsFrom streamName version events) : ∃ v, versionOf r = some v ∧ version < v := by
  induction events generalizing version with
  | nil => cases hr
  | cons event events ih =>
    rcases List.mem_cons.mp hr with rfl | hr
    · exact ⟨version + 1,versionOf_encoded (e := wireEvent (version + 1) event) rfl,by omega⟩
    · obtain ⟨v,hv,hlt⟩ := ih hr
      exact ⟨v,hv,by omega⟩

theorem ordered_recordsFrom (streamName : String) (version : ℤ) (events : List AppendEvent) :
    Ordered (recordsFrom streamName version events) := by
  induction events generalizing version with
  | nil => exact List.Pairwise.nil
  | cons event events ih =>
    refine List.Pairwise.cons ?_ (ih _)
    intro r hr
    obtain ⟨v,hv,hlt⟩ := lt_of_mem_recordsFrom hr
    have hfirst : versionOf ⟨streamName,encodeWireEvent (wireEvent (version + 1) event)⟩ = some (version + 1) :=
      versionOf_encoded (e := wireEvent (version + 1) event) rfl
    rw [before_iff hfirst hv]
    exact fun _ => hlt

def RowOk (row : PendingRow) : Prop := ∃ e, row.recordValue = encodeWireEvent e

def LedgerOk (l : Ledger) : Prop := ∀ row ∈ l.pending, RowOk row

theorem LedgerOk.stage {topic streamName : String} {validate : Bool} {version : ℤ} {events : List AppendEvent} {l l' : Ledger}
    (h : LedgerOk l) (hs : Ledger.stage topic validate streamName version events l = .ok l') : LedgerOk l' := by
  induction events generalizing version l with
  | nil =>
    obtain rfl := Except.ok.inj hs
    exact h
  | cons event events ih =>
    rw [Ledger.stage] at hs
    split at hs
    next => cases hs
    next =>
      split at hs
      next => cases hs
      next =>
        refine ih ?_ hs
        intro row hrow
        rcases List.mem_append.mp hrow with hrow | hrow
        · exact h row hrow
        · rw [List.mem_singleton.mp hrow]
          exact ⟨_,rfl⟩

theorem LedgerOk.bump {streamName : String} {expectedVersion : ℤ} {count : ℕ} {l l' : Ledger} (h : LedgerOk l)
    (hs : l.bump streamName expectedVersion count = .ok l') : LedgerOk l' := by
  unfold Ledger.bump at hs
  split at hs
  next =>
    split at hs
    next => cases hs
    next =>
      obtain rfl := Except.ok.inj hs
      exact h
  next =>
    split at hs
    next =>
      obtain rfl := Except.ok.inj hs
      exact h
    next =>
      obtain rfl := Except.ok.inj hs
      exact h

theorem LedgerOk.reserve {topic streamName : String} {validate : Bool} {expectedVersion : ℤ} {events : List AppendEvent}
    {l l' : Ledger}
    {result : AppendResult} (h : LedgerOk l) (hs : l.reserve topic validate streamName expectedVersion events =
      .ok (l',result)) :
    LedgerOk l' := by
  unfold Ledger.reserve at hs
  cases hbody : l.reserveBody topic validate streamName expectedVersion events with
  | error e =>
    rw [hbody] at hs
    cases e <;> cases hs
  | ok r =>
    rw [hbody] at hs
    obtain rfl := Except.ok.inj hs
    unfold Ledger.reserveBody at hbody
    split at hbody
    next =>
      split at hbody
      next => cases hbody
      next =>
        obtain ⟨rfl,-⟩ := Prod.mk.inj (Except.ok.inj hbody)
        exact h
    next =>
      cases hbump : l.bump streamName expectedVersion events.length with
      | error e =>
        rw [hbump] at hbody
        cases hbody
      | ok bumped =>
        rw [hbump] at hbody
        change (if _ then _ else _) = _ at hbody
        split at hbody
        next => cases hbody
        next =>
          cases hstage : Ledger.stage topic validate streamName expectedVersion events bumped with
          | error e =>
            rw [hstage] at hbody
            cases hbody
          | ok staged =>
            rw [hstage] at hbody
            obtain ⟨rfl,-⟩ := Prod.mk.inj (Except.ok.inj hbody)
            exact (h.bump hbump).stage hstage

def callRows : Call → List PendingRow
  | .append _ => []
  | .relay _ .select => []
  | .relay _ (.produce row rows) => row :: rows
  | .relay _ (.producing _ row rows) => row :: rows
  | .relay _ (.delete row rows) => row :: rows

def CallOk (call : Call) : Prop := ∀ row ∈ callRows call, RowOk row

structure RequestOk (r : Request) : Prop where
  encoded : ∀ x ∈ r.records, Encoded x
  ordered : Ordered r.records

structure NisshiOk (s : NisshiState) : Prop where
  ledger : LedgerOk s.ledger
  calls : s.calls.All CallOk
  requests : ∀ r ∈ s.requests, RequestOk r
  topics : ∀ topic, ∀ x ∈ s.topics topic, Encoded x

variable {s s' : NisshiState}

theorem NisshiOk.goOn (h : NisshiOk s) (caller : ℕ) {call : Option Call} (hc : ∀ c, call = some c → CallOk c) :
    NisshiOk (s.goOn caller call) := by
  cases call with
  | none => exact ⟨h.ledger,h.calls.remove,h.requests,h.topics⟩
  | some c => exact ⟨h.ledger,h.calls.set (hc c rfl),h.requests,h.topics⟩

theorem NisshiOk.execute (h : NisshiOk s) {l : Ledger} (hl : LedgerOk l) (outcome : StepOutcome) :
    NisshiOk (s.execute l outcome) := by
  cases outcome with
  | failed => exact h
  | ok | failedAfterWrite => exact ⟨hl,h.calls,h.requests,h.topics⟩

theorem NisshiOk.send (h : NisshiOk s) {topic : String} {records : List TopicRecord} (hr : RequestOk ⟨topic,records,false⟩) :
    NisshiOk (s.send topic records) := by
  refine ⟨h.ledger,h.calls,?_,h.topics⟩
  intro r hmem
  rcases List.mem_append.mp hmem with hmem | hmem
  · exact h.requests r hmem
  · rw [List.mem_singleton.mp hmem]
    exact hr

theorem LedgerOk.confirm {l : Ledger} (h : LedgerOk l) (streamName : String) (expectedVersion : ℤ) (count : ℕ) :
    LedgerOk (l.confirm streamName expectedVersion count) :=
  fun row hrow => h row (List.mem_of_mem_filter hrow)

@[simp] theorem goOn_topics (s : NisshiState) (caller : ℕ) (call : Option Call) : (s.goOn caller call).topics = s.topics := by
  cases call <;> rfl

@[simp] theorem execute_topics (s : NisshiState) (l : Ledger) (outcome : StepOutcome) : (s.execute l outcome).topics =
    s.topics := by
  cases outcome <;> rfl

@[simp] theorem send_topics (s : NisshiState) (topic : String) (records : List TopicRecord) : (s.send topic records).topics =
    s.topics :=
  rfl

theorem callOk_none (call : Call) (h : none = some call) : CallOk call := by
  cases h

theorem callOk_onOk (outcome : StepOutcome) {call : Call} (hcall : CallOk call) : ∀ c, onOk outcome call = some c →
    CallOk c := by
  intro c hc
  cases outcome with
  | ok =>
    obtain rfl := Option.some.inj hc
    exact hcall
  | failed | failedAfterWrite => cases hc

theorem NisshiOk.appendStep (h : NisshiOk s) {caller : ℕ} {c : AppendCall} {outcome : StepOutcome}
    (hs : s.appendStep caller c outcome = some s') : NisshiOk s' ∧ s'.topics = s.topics := by
  have hnext : ∀ phase call, some (Call.append {c with phase := phase}) = some call → CallOk call := by
    rintro phase call ⟨⟩ row hrow
    cases hrow
  unfold NisshiState.appendStep at hs
  split at hs
  next =>
    obtain rfl := Option.some.inj hs
    split
    next => exact ⟨h.goOn caller callOk_none,by simp⟩
    next ledger result hreserve =>
      refine ⟨(h.execute (h.ledger.reserve hreserve) outcome).goOn caller ?_,by simp⟩
      split
      next => exact callOk_none
      next =>
        cases outcome with
        | ok => exact hnext .produce
        | failed | failedAfterWrite => exact callOk_none
  next =>
    obtain rfl := Option.some.inj hs
    have hrequest : RequestOk ⟨c.topic,recordsFrom c.streamName c.expectedVersion c.events,false⟩ :=
      ⟨encoded_recordsFrom _ _ _,ordered_recordsFrom _ _ _⟩
    exact ⟨(h.send hrequest).goOn caller (hnext _),by simp⟩
  next =>
    cases outcome with
    | ok =>
      change (if _ then _ else _) = _ at hs
      split at hs
      next =>
        obtain rfl := Option.some.inj hs
        exact ⟨h.goOn caller (hnext _),by simp⟩
      next => cases hs
    | failed | failedAfterWrite =>
      obtain rfl := Option.some.inj hs
      exact ⟨h.goOn caller (hnext _),by simp⟩
  next =>
    obtain rfl := Option.some.inj hs
    have hrollback : LedgerOk (s.ledger.rollback c.streamName c.expectedVersion c.events.length) :=
      h.ledger.confirm c.streamName c.expectedVersion c.events.length
    exact ⟨(h.execute hrollback outcome).goOn caller callOk_none,by simp⟩
  next =>
    obtain rfl := Option.some.inj hs
    exact ⟨(h.execute (h.ledger.confirm _ _ _) outcome).goOn caller callOk_none,by simp⟩

theorem NisshiOk.relayStep (h : NisshiOk s) {caller batchSize : ℕ} {phase : RelayPhase} {outcome : StepOutcome}
    (hphase : CallOk (.relay batchSize phase)) (hs : s.relayStep caller batchSize phase outcome = some s') :
    NisshiOk s' ∧ s'.topics = s.topics := by
  unfold NisshiState.relayStep at hs
  split at hs
  next =>
    obtain rfl := Option.some.inj hs
    split
    next => exact ⟨h.goOn caller callOk_none,by simp⟩
    next row rows hrows =>
      refine ⟨h.goOn caller ?_,by simp⟩
      have hok : CallOk (.relay batchSize (.produce row rows)) := by
        intro r hr
        have hmem : r ∈ s.ledger.select batchSize := by rwa [hrows]
        exact h.ledger r ((List.perm_insertionSort _ _).mem_iff.mp (List.mem_of_mem_take hmem))
      cases outcome with
      | ok => exact callOk_onOk .ok hok
      | failed | failedAfterWrite => exact callOk_none
  next row rows =>
    obtain rfl := Option.some.inj hs
    have hrequest : RequestOk ⟨row.topic,[⟨row.streamName,row.recordValue⟩],false⟩ := by
      refine ⟨?_,List.pairwise_singleton ..⟩
      intro x hx
      rw [List.mem_singleton.mp hx]
      exact hphase row List.mem_cons_self
    exact ⟨(h.send hrequest).goOn caller (callOk_onOk .ok hphase),by simp⟩
  next request row rows =>
    cases outcome with
    | ok =>
      change (if _ then _ else _) = _ at hs
      split at hs
      next =>
        obtain rfl := Option.some.inj hs
        exact ⟨h.goOn caller (callOk_onOk .ok hphase),by simp⟩
      next => cases hs
    | failed | failedAfterWrite =>
      obtain rfl := Option.some.inj hs
      exact ⟨h.goOn caller callOk_none,by simp⟩
  next row rows =>
    obtain rfl := Option.some.inj hs
    have hremove : LedgerOk (s.ledger.remove row) := fun r hr => h.ledger r (List.mem_of_mem_filter hr)
    refine ⟨(h.execute hremove outcome).goOn caller ?_,by simp⟩
    have hrest : CallOk (.relay batchSize (rowsPhase rows)) := by
      intro r hr
      cases rows with
      | nil => cases hr
      | cons row' rows => exact hphase r (List.mem_cons_of_mem row hr)
    cases outcome with
    | ok => exact callOk_onOk .ok hrest
    | failed | failedAfterWrite => exact callOk_none

theorem write_cases {request : ℕ} (hs : s.write request = some s') :
    ∃ topic records, s.requests[request]? = some ⟨topic,records,false⟩ ∧ s' = {s with
      topics := Function.update s.topics topic (s.topics topic ++ records)
      requests := s.requests.set request ⟨topic,records,true⟩} := by
  unfold NisshiState.write at hs
  split at hs
  next topic records hr => exact ⟨topic,records,hr,(Option.some.inj hs).symm⟩
  next => cases hs

theorem NisshiOk.write (h : NisshiOk s) {request : ℕ} (hs : s.write request = some s') : NisshiOk s' := by
  obtain ⟨topic,records,hr,rfl⟩ := write_cases hs
  have hok := h.requests _ (List.mem_of_getElem? hr)
  refine ⟨h.ledger,h.calls,?_,?_⟩
  · intro r hmem
    rcases List.mem_or_eq_of_mem_set hmem with hmem | rfl
    · exact h.requests r hmem
    · exact ⟨hok.encoded,hok.ordered⟩
  · intro other x hx
    change x ∈ Function.update s.topics topic (s.topics topic ++ records) other at hx
    by_cases hne : other = topic
    · subst hne
      rw [Function.update_self] at hx
      rcases List.mem_append.mp hx with hx | hx
      · exact h.topics other x hx
      · exact hok.encoded x hx
    · rw [Function.update_of_ne hne] at hx
      exact h.topics other x hx

theorem NisshiOk.begin (h : NisshiOk s) {caller : ℕ} {call : Call} (hc : CallOk call) (hs : s.begin caller call = some s') :
    NisshiOk s' ∧ s'.topics = s.topics := by
  unfold NisshiState.begin at hs
  split at hs
  next =>
    obtain rfl := Option.some.inj hs
    refine ⟨h.goOn caller ?_,by simp⟩
    rintro c ⟨⟩
    exact hc
  next => cases hs

theorem NisshiOk.step (h : NisshiOk s) {l : Label} (hs : s.step l = some s') :
    NisshiOk s' ∧ ((∀ request, l ≠ .write request) → s'.topics = s.topics) := by
  have hquiet : NisshiOk s' ∧ s'.topics = s.topics → NisshiOk s' ∧ ((∀ request, l ≠ .write request) → s'.topics = s.topics) :=
    fun h => ⟨h.1,fun _ => h.2⟩
  cases l with
  | append caller topic validate streamName expectedVersion events =>
    apply hquiet
    refine h.begin ?_ hs
    intro row hrow
    cases hrow
  | relay caller batchSize =>
    apply hquiet
    refine h.begin ?_ hs
    intro row hrow
    cases hrow
  | call caller outcome =>
    apply hquiet
    simp only [NisshiState.step] at hs
    split at hs
    next => exact h.appendStep hs
    next batchSize phase hcall => exact h.relayStep (h.calls _ _ hcall) hs
    next => cases hs
  | crash caller =>
    apply hquiet
    obtain ⟨call,-,rfl⟩ := Option.map_eq_some_iff.mp hs
    exact ⟨h.goOn caller callOk_none,by simp⟩
  | write request => exact ⟨h.write hs,fun hne => absurd rfl (hne request)⟩

/-- The request, if it is for the topic, writes of every stream later versions than the topic holds. -/
def writesAbove (topic : String) (s : NisshiState) : Label → Bool
  | .write request =>
    match s.requests[request]? with
    | some ⟨topic',records,false⟩ => topic' ≠ topic || (s.topics topic).all fun a => records.all fun b => before a b
    | _ => true
  | _ => true

theorem ordered_append {rs rs' : List TopicRecord} (h' : Ordered rs') :
    Ordered (rs ++ rs') ↔ Ordered rs ∧ (rs.all fun a => rs'.all fun b => before a b) = true := by
  rw [Ordered,List.pairwise_append]
  simp only [List.all_eq_true]
  exact ⟨fun h => ⟨h.1,h.2.2⟩,fun h => ⟨h.1,h',h.2⟩⟩

theorem ordered_step {topic : String} {l : Label} (h : NisshiOk s) (hs : s.step l = some s') :
    Ordered (s'.topics topic) ↔ Ordered (s.topics topic) ∧ writesAbove topic s l = true := by
  cases l with
  | append | relay | call | crash =>
    rw [(h.step hs).2 (fun request hr => by cases hr)]
    exact ⟨fun ho => ⟨ho,rfl⟩,And.left⟩
  | write request =>
    obtain ⟨topic',records,hr,rfl⟩ := write_cases hs
    have hok := h.requests _ (List.mem_of_getElem? hr)
    simp only [writesAbove,hr]
    by_cases hne : topic' = topic
    · subst hne
      rw [Function.update_self,ordered_append hok.ordered]
      simp
    · rw [Function.update_of_ne (Ne.symm hne)]
      simp [hne]

theorem nisshiOk_init : NisshiOk nisshi.init where
  ledger := by
    intro row hrow
    cases hrow
  calls := Fibers.all_empty CallOk
  requests := by
    intro r hr
    cases hr
  topics := by
    intro topic x hx
    cases hx

def InOrderOf (topic : String) (s : NisshiState) : Prop := Ordered (s.topics topic)

/-- After a run `readAll` is in order just if every write of the run was of later versions than the topic held, where `read`
is in order always. -/
theorem readAll_once_in_order {labels : List Label} (h : nisshi.run labels = some s) (topic : String) :
    ((∀ more options events, readAll (s.topics topic) more options = .ok events → OnceInOrder events) ↔
      (nisshi.guard (writesAbove topic)).run labels = some s) ∧
    ∀ more streamName fromVersion events, read (s.topics topic) more streamName fromVersion = .ok events →
      OnceInOrder events := by
  have hok : NisshiOk s := (System.run_reachable h).invariant NisshiOk nisshiOk_init fun a l b ha _ hb => (ha.step hb).1
  refine ⟨?_,fun more streamName fromVersion events => read_inOrder⟩
  rw [readAll_inOrder (hok.topics topic)]
  exact System.runFrom_guard_iff (P := InOrderOf topic) (fun a l b ha hb => (NisshiOk.step ha hb).1)
    (fun a l b ha hb => ordered_step ha hb) nisshiOk_init List.Pairwise.nil h

def placed : AppendEvent := ⟨"OrderPlaced",1,.null,⟨"e-1","2024-01-01T00:00:00.000Z","order","1",Decimal.ofInt 1,none,none,none,
    none,none,none⟩⟩

/-- An append that is confirmed, and another to the next stream. -/
def confirmedRun : List Label := [.append 0 "events" true "order-1" 0 [placed],.call 0 .ok,.call 0 .ok,.write 0,.call 0 .ok,
    .call 0 .ok,
  .append 1 "events" true "order-2" 0 [placed],.call 1 .ok,.call 1 .ok,.write 1]

def confirmed : NisshiState := (nisshi.run confirmedRun).getD nisshi.init

theorem readAll_once_in_order_confirmed : (confirmed.topics "events").length = 2 ∧
    (∀ more options events, readAll (confirmed.topics "events") more options = .ok events → OnceInOrder events) ∧
    ∀ more streamName fromVersion events, read (confirmed.topics "events") more streamName fromVersion = .ok events →
      OnceInOrder events := by
  obtain ⟨hall,hstream⟩ := readAll_once_in_order (show nisshi.run confirmedRun = some confirmed from rfl) "events"
  exact ⟨rfl,hall.mpr rfl,hstream⟩

/-- The confirmation of an append fails, and a relay produces its record again. -/
def doubledRun : List Label := [.append 0 "events" true "order-1" 0 [placed],.call 0 .ok,.call 0 .ok,.write 0,.call 0 .ok,
    .call 0 .failed,
  .relay 1 32,.call 1 .ok,.call 1 .ok,.write 1]

def doubled : NisshiState := (nisshi.run doubledRun).getD nisshi.init

/-- The topic gives the one event twice. -/
theorem readAll_once_in_order_doubled : nisshi.run doubledRun = some doubled ∧
    ∃ events, readAll (doubled.topics "events") (fun _ => 0) {} = .ok events ∧ ¬ OnceInOrder events := by
  have htopic : doubled.topics "events" = [⟨"order-1",encodeWireEvent (wireEvent 1 placed)⟩,
    ⟨"order-1",encodeWireEvent (wireEvent 1 placed)⟩] := rfl
  have hencoded : ∀ r ∈ doubled.topics "events", Encoded r := by
    rw [htopic]
    intro r hr
    simp only [List.mem_cons,List.not_mem_nil,or_false,or_self] at hr
    exact ⟨_,congrArg TopicRecord.value hr⟩
  refine ⟨rfl,_,readAll_eq hencoded (Nat.zero_le _) rfl,?_⟩
  have hcons : ∀ offset rs, stored offset (⟨"order-1",encodeWireEvent (wireEvent 1 placed)⟩ :: rs) =
      storedEvent offset "order-1" (wireEvent 1 placed) :: stored (offset + 1) rs := fun _ _ => stored_cons rfl
  rw [htopic,hcons,hcons]
  intro h
  have honce := h.once
  simp [readAllOf,storedEvent,wireEvent,stored,fetchedAt,inPartitions,readAllPartitions] at honce

end Runs
end StructureAi.Nisshi
