import StructureAi.Postgres.Sessions

/-! # What a reported conflict says

An append answers a conflict where the ledger has its stream, where the version it reads is not the
one expected, and where an insert violates either constraint of the events table. A stream's
versions are taken only by other writers, and stay taken; a position is taken when an import has
moved ahead of the sequence, or when its realignment has moved the sequence back.
-/
namespace StructureAi.Postgres
open StructureAi.Foundation StructureAi.EventSourcing

namespace AppendAnswer
variable (a : AppendAnswer)

def Conflict : Prop := ∃ e, a.outcome = .error (.concurrencyConflict e)

def Erased : Prop := ∃ r ∈ a.view.erasedStreams, r.streamName = a.call.streamName

/-- The stream is erased or has another version than expected, and no position was taken. -/
def Justified : Prop :=
  (a.Erased ∨ a.view.currentVersion a.call.streamName ≠ a.call.expectedVersion) ∧
    a.violation ≠ some .primaryKey

end AppendAnswer

section Versions
variable {α : Type*} {f : α → ℤ}

theorem maxOf_cons (r : α) (rows : List α) :
    maxOf f (r :: rows) = some ((maxOf f rows).elim (f r) (max (f r))) := by
  have hfold : ∀ (rows : List α) (m n : ℤ),
      rows.foldl (fun m r => max m (f r)) (max m n) = max m (rows.foldl (fun m r => max m (f r)) n) := by
    intro rows
    induction rows with
    | nil => intro m n; rfl
    | cons r rows ih =>
      intro m n
      rw [List.foldl_cons,List.foldl_cons,max_assoc,ih]
  cases rows with
  | nil => rfl
  | cons r' rows => exact congrArg some (hfold rows (f r) (f r'))

theorem maxOf_eq_some_iff {rows : List α} {m : ℤ} :
    maxOf f rows = some m ↔ (∃ r ∈ rows, f r = m) ∧ ∀ r ∈ rows, f r ≤ m := by
  induction rows generalizing m with
  | nil => simp [maxOf]
  | cons r rows ih =>
    rw [maxOf_cons,Option.some.injEq]
    cases h : maxOf f rows with
    | none =>
      have hnil : rows = [] := by
        cases rows with
        | nil => rfl
        | cons r' rows => cases h
      subst hnil
      simp
      omega
    | some n =>
      obtain ⟨⟨r',hr',rfl⟩,hle⟩ := ih.mp h
      simp only [Option.elim,List.mem_cons,exists_eq_or_imp,forall_eq_or_imp]
      constructor
      · rintro rfl
        refine ⟨?_,le_max_left _ _,fun x hx => (hle x hx).trans (le_max_right _ _)⟩
        rcases le_total (f r') (f r) with hm | hm
        · exact Or.inl (max_eq_left hm).symm
        · exact Or.inr ⟨r',hr',(max_eq_right hm).symm⟩
      · rintro ⟨hmem,hr,hall⟩
        refine le_antisymm (max_le hr (hall r' hr')) ?_
        rcases hmem with rfl | ⟨x,hx,rfl⟩
        · exact le_max_left _ _
        · exact (hle x hx).trans (le_max_right _ _)

theorem maxOf_eq_none_iff {rows : List α} : maxOf f rows = none ↔ rows = [] := by
  cases rows with
  | nil => simp [maxOf]
  | cons r rows => simp [maxOf]

theorem maxOf_congr_mem {rows rows' : List α} (h : ∀ r, r ∈ rows ↔ r ∈ rows') :
    maxOf f rows = maxOf f rows' := by
  cases hm : maxOf f rows with
  | none =>
    obtain rfl := maxOf_eq_none_iff.mp hm
    have hnil : rows' = [] := List.eq_nil_iff_forall_not_mem.mpr fun r hr => by simpa using (h r).mpr hr
    rw [hnil]
    rfl
  | some m =>
    obtain ⟨⟨r,hr,hrm⟩,hle⟩ := maxOf_eq_some_iff.mp hm
    exact (maxOf_eq_some_iff.mpr ⟨⟨r,(h r).mp hr,hrm⟩,fun x hx => hle x ((h x).mpr hx)⟩).symm

theorem le_currentVersion {db : Database} {r : EventRow} (h : r ∈ db.events) :
    r.version ≤ db.currentVersion r.streamName := by
  unfold Database.currentVersion
  have hmem : r ∈ db.events.filter fun x => x.streamName = r.streamName :=
    List.mem_filter.mpr ⟨h,decide_eq_true rfl⟩
  cases hm : maxOf EventRow.version (db.events.filter fun x => x.streamName = r.streamName) with
  | none =>
    rw [maxOf_eq_none_iff.mp hm] at hmem
    cases hmem
  | some m => exact (maxOf_eq_some_iff.mp hm).2 r hmem

theorem exists_new_row {db db' : Database} (hsub : db.events ⊆ db'.events) {streamName : String}
    (hne : db'.currentVersion streamName ≠ db.currentVersion streamName) :
    ∃ r ∈ db'.events, r ∉ db.events ∧ r.streamName = streamName := by
  by_contra hnone
  push Not at hnone
  refine hne (congrArg (fun m : Option ℤ => m.getD 0) (maxOf_congr_mem fun r => ?_))
  rw [List.mem_filter,List.mem_filter,decide_eq_true_eq]
  constructor
  · rintro ⟨hr,hs⟩
    refine ⟨?_,hs⟩
    by_contra hnew
    exact hnone r hr hnew hs
  · rintro ⟨hr,hs⟩
    exact ⟨hsub hr,hs⟩

end Versions

/-- What holds of a unit beside the committed rows: its running append has written versions up to
the one it is at, and rolled back only where another writer had taken a version it expected free. -/
def WorkUnit.Keeps (events : List EventRow) (u : WorkUnit) : Prop :=
  match u.phase with
  | .idle => True
  | .lockStream _ | .checkErased _ | .checkVersion _ | .serializeCommitOrder _ => u.rows = u.saved
  | .nextval c done | .insert c done _ =>
    ∀ r ∈ u.rows, r ∈ u.saved ∨ r.version ≤ c.expectedVersion + done
  | .currentVersion c v => v = .streamVersion ∧
    ∃ r ∈ events ++ u.rows, r.streamName = c.streamName ∧ c.expectedVersion < r.version

/-- The running append has written nothing yet. -/
def AppendPhase.unwritten : AppendPhase → Bool
  | .lockStream _ | .checkErased _ | .checkVersion _ | .serializeCommitOrder _ => true
  | .idle | .nextval _ _ | .insert _ _ _ | .currentVersion _ _ => false

theorem WorkUnit.keeps_unwritten {events : List EventRow} {u : WorkUnit} (hu : u.phase.unwritten = true) :
    u.Keeps events ↔ u.rows = u.saved := by
  unfold WorkUnit.Keeps
  cases hphase : u.phase with
  | lockStream _ => rfl
  | checkErased _ => rfl
  | checkVersion _ => rfl
  | serializeCommitOrder _ => rfl
  | _ =>
    rw [hphase] at hu
    cases hu

theorem WorkUnit.Keeps.written {events : List EventRow} {u : WorkUnit} (h : u.Keeps events) {c : AppendCall} {done : ℕ}
    {position : ℤ} (hu : u.phase = .insert c done position) :
    ∀ r ∈ u.rows, r ∈ u.saved ∨ r.version ≤ c.expectedVersion + done := by
  unfold WorkUnit.Keeps at h
  rwa [hu] at h

def Session.Keeps (events : List EventRow) : Session → Prop
  | .unit u => u.Keeps events
  | .importing _ => True

theorem Session.Keeps.mono {events events' : List EventRow} (hsub : events ⊆ events') {x : Session}
    (h : x.Keeps events) : x.Keeps events' := by
  cases x with
  | importing phase => exact h
  | unit u =>
    unfold Session.Keeps WorkUnit.Keeps at h ⊢
    dsimp only at h ⊢
    split at h
    next => trivial
    next => exact h
    next => exact h
    next => exact h
    next => exact h
    next => exact h
    next => exact h
    next =>
      obtain ⟨hv,r,hr,hrest⟩ := h
      refine ⟨hv,r,?_,hrest⟩
      rcases List.mem_append.mp hr with hr | hr
      · exact List.mem_append_left _ (hsub hr)
      · exact List.mem_append_right _ hr

namespace Cluster
variable {jsonb : String → Option String} {p : ImportPrimitives} {hashtext : String → ℤ}
  {s t : Cluster} {i : ℕ} {u : WorkUnit}

/-- What any step does to the tables and the answers. -/
structure Grows (s t : Cluster) : Prop where
  events : s.db.events ⊆ t.db.events
  erased : t.db.erasedStreams = s.db.erasedStreams
  answers : ∃ new, t.answers = s.answers ++ new ∧ ∀ a ∈ new, s.db.events ⊆ a.view.events

/-- What the statements of an append do, where what holds before is known to be `fine`. -/
structure Follows (fine : Prop) (i : ℕ) (s t : Cluster) : Prop extends Grows s t where
  unit : ∃ u, t.sessions = s.sessions.set i (.unit u) ∧ (fine → u.Keeps t.db.events)
  justified : fine → ∀ a ∈ t.answers, a ∈ s.answers ∨ (a.Conflict → a.Justified)

theorem Grows.silent (hdb : t.db.events = s.db.events) (herased : t.db.erasedStreams = s.db.erasedStreams)
    (hanswers : t.answers = s.answers) : Grows s t :=
  ⟨hdb ▸ List.Subset.refl _,herased,[],by rw [hanswers,List.append_nil],fun a ha => absurd ha List.not_mem_nil⟩

theorem Follows.silent {fine : Prop} {u' : WorkUnit} (hdb : t.db.events = s.db.events)
    (herased : t.db.erasedStreams = s.db.erasedStreams) (hanswers : t.answers = s.answers)
    (hsessions : t.sessions = s.sessions.set i (.unit u')) (hkeeps : fine → u'.Keeps s.db.events) :
    Follows fine i s t :=
  ⟨.silent hdb herased hanswers,⟨u',hsessions,hdb ▸ hkeeps⟩,fun _ _ ha => Or.inl (hanswers ▸ ha)⟩

theorem Follows.answered {fine : Prop} {u' : WorkUnit} {a : AppendAnswer} (hdb : t.db = s.db)
    (hsessions : t.sessions = s.sessions.set i (.unit u')) (hidle : u'.phase = .idle)
    (hanswers : t.answers = s.answers ++ [a]) (hview : s.db.events ⊆ a.view.events)
    (hjust : fine → a.Conflict → a.Justified) : Follows fine i s t := by
  refine ⟨⟨hdb ▸ List.Subset.refl _,by rw [hdb],[a],hanswers,fun b hb => ?_⟩,⟨u',hsessions,fun _ => ?_⟩,?_⟩
  · rwa [List.mem_singleton.mp hb]
  · unfold WorkUnit.Keeps
    rw [hidle]
    trivial
  · intro hfine b hb
    rw [hanswers] at hb
    rcases List.mem_append.mp hb with hb | hb
    · exact Or.inl hb
    · rw [List.mem_singleton.mp hb]
      exact Or.inr (hjust hfine)

/-- The position that an insert is about to take is free. -/
def positionFree (s : Cluster) : ClusterStep → Bool
  | .statement i =>
    match s.sessions i with
    | some (.unit u) =>
      match u.phase with
      | .insert _ _ position => !(s.db.events ++ u.rows).any fun r => r.position = position
      | _ => true
    | _ => true
  | .start _ | .append _ _ | .fail _ | .commit _ | .abort _ | .importBatch _ _ _ => true

theorem positionFree_insert (hs : s.sessions i = some (.unit u)) {c : AppendCall} {done : ℕ} {position : ℤ}
    (hu : u.phase = .insert c done position) (h : s.positionFree (.statement i) = true) :
    ∀ r ∈ s.db.events ++ u.rows, r.position ≠ position := by
  simpa [positionFree,hs,hu,or_imp,forall_and] using h

theorem violated_streamVersion {rows : List EventRow} {row : EventRow} {v : EventsConstraint}
    (h : violated rows row = some v) (hfree : ∀ r ∈ rows, r.position ≠ row.position) :
    v = .streamVersion ∧ ∃ r ∈ rows, r.streamName = row.streamName ∧ r.version = row.version := by
  unfold violated at h
  rw [if_neg (by simpa using hfree)] at h
  split at h
  next hany =>
    obtain ⟨r,hr,heq⟩ := List.any_eq_true.mp hany
    exact ⟨(Option.some.inj h).symm,r,hr,of_decide_eq_true heq⟩
  next => cases h

theorem eventRow_columns {position : ℤ} {streamName : String} {version : ℤ} {event : AppendEvent}
    {row : EventRow} (h : eventRow jsonb position streamName version event = .ok row) :
    row.position = position ∧ row.streamName = streamName ∧ row.version = version := by
  unfold eventRow at h
  split at h
  next =>
    split at h
    next => cases h
    next =>
      cases h
      exact ⟨rfl,rfl,rfl⟩
  next => cases h

theorem insertInto_ok {rows : List EventRow} {position : ℤ} {streamName : String} {version : ℤ}
    {event : AppendEvent} {row : EventRow}
    (h : insertInto jsonb rows position streamName version event = .ok row) :
    eventRow jsonb position streamName version event = .ok row := by
  unfold insertInto at h
  split at h
  next => cases h
  next heq =>
    split at h
    next => cases h
    next =>
      cases h
      exact heq

theorem insertInto_unique {rows : List EventRow} {position : ℤ} {streamName : String} {version : ℤ}
    {event : AppendEvent} {v : EventsConstraint} (hfree : ∀ r ∈ rows, r.position ≠ position)
    (h : insertInto jsonb rows position streamName version event = .error (.unique v)) :
    v = .streamVersion ∧ ∃ r ∈ rows, r.streamName = streamName ∧ r.version = version := by
  unfold insertInto at h
  split at h
  next => cases h
  next row hrow =>
    obtain ⟨rfl,rfl,rfl⟩ := eventRow_columns hrow
    split at h
    next hv =>
      cases h
      exact violated_streamVersion hv hfree
    next => cases h

section
variable (jsonb s i u)

/-- What a statement of an append can do, by the phase of its unit. -/
inductive Statement : Cluster → Prop
  | locksStream {c : AppendCall} {key : ℤ} (hu : u.phase.unwritten = true) :
    Statement {s.put i {u with phase := .checkErased c, tookStream := some key} with
      locks := {s.locks with stream := Function.update s.locks.stream key (some i)}}
  | moves {phase : AppendPhase} (hu : u.phase.unwritten = true) (hphase : phase.unwritten = true) :
    Statement (s.put i (u.moved phase))
  | erased {c : AppendCall} {r : ErasedStreamRow} (hr : r ∈ s.db.erasedStreams) (hname : r.streamName = c.streamName) :
    Statement (s.refuse i u c (.concurrencyConflict (conflict c.streamName c.expectedVersion r.lastVersion)))
  | outdated {c : AppendCall} (hu : u.phase.unwritten = true)
    (hne : (s.view u.rows).currentVersion c.streamName ≠ c.expectedVersion) :
    Statement (s.refuse i u c (.concurrencyConflict
      (conflict c.streamName c.expectedVersion ((s.view u.rows).currentVersion c.streamName))))
  | takesOrder {c : AppendCall} (hu : u.phase.unwritten = true) (hfree : s.locks.order = none) :
    Statement {s.put i {u with phase := .nextval c 0, tookOrder := true} with
      locks := {s.locks with order := some i}}
  | holdsOrder {c : AppendCall} (hu : u.phase.unwritten = true) (hheld : s.locks.order = some i) :
    Statement (s.put i (u.moved (.nextval c 0)))
  | succeeds (c : AppendCall) (result : AppendResult) : Statement (s.succeed i u c result)
  | draws {c : AppendCall} {done : ℕ} (hu : u.phase = .nextval c done) (hexclusive : s.locks.exclusive = none) :
    Statement {s.put i {u with
        phase := .insert c done (s.db.sequence + 1), tookTable := u.tookTable || decide (i ∉ s.locks.writers)} with
      db := {s.db with sequence := s.db.sequence + 1}
      locks := {s.locks with writers := insert i s.locks.writers}}
  | inserts {c : AppendCall} {done : ℕ} {position : ℤ} {event : AppendEvent} {row : EventRow}
    (hu : u.phase = .insert c done position)
    (hrow : eventRow jsonb position c.streamName (c.expectedVersion + done + 1) event = .ok row) :
    Statement (s.put i {u with phase := .nextval c (done + 1), rows := u.rows ++ [row]})
  | taken {c : AppendCall} {done : ℕ} {position : ℤ} {event : AppendEvent} {v : EventsConstraint}
    (hu : u.phase = .insert c done position)
    (htaken : insertInto jsonb (s.db.events ++ u.rows) position c.streamName (c.expectedVersion + done + 1) event =
      .error (.unique v)) : Statement (s.rollback i u (.currentVersion c v))
  | fails (c : AppendCall) : Statement (s.refuse i u c (.persistence ⟨"EventStore"⟩))
  | conflicts {c : AppendCall} {v : EventsConstraint} (hu : u.phase = .currentVersion c v) :
    Statement ((s.put i (u.moved .idle)).answer c (.error (.concurrencyConflict (conflict c.streamName
      c.expectedVersion ((s.view u.rows).currentVersion c.streamName)))) (some v) u.rows)

end

theorem appendStatement_cases (h : s.appendStatement jsonb hashtext i u = some t) : Statement jsonb s i u t := by
  unfold appendStatement at h
  split at h
  next => cases h
  next c hu =>
    have hu : u.phase.unwritten = true := hu ▸ rfl
    dsimp only at h
    split at h
    next =>
      cases h
      exact .locksStream hu
    next =>
      split at h
      next =>
        cases h
        exact .moves hu rfl
      next => cases h
  next c hu =>
    have hu : u.phase.unwritten = true := hu ▸ rfl
    split at h
    next r hfind =>
      cases h
      exact .erased (List.mem_of_find?_eq_some hfind) (by simpa using List.find?_some hfind)
    next =>
      cases h
      exact .moves hu rfl
  next c hu =>
    have hu : u.phase.unwritten = true := hu ▸ rfl
    dsimp only at h
    split at h
    next hne =>
      cases h
      exact .outdated hu hne
    next =>
      split at h
      next =>
        cases h
        exact .succeeds c _
      next =>
        cases h
        exact .moves hu rfl
  next c hu =>
    have hu : u.phase.unwritten = true := hu ▸ rfl
    split at h
    next hfree =>
      cases h
      exact .takesOrder hu hfree
    next j hheld =>
      split at h
      next hj =>
        cases h
        exact .holdsOrder hu (hj ▸ hheld)
      next => cases h
  next c done hu =>
    dsimp only at h
    split at h
    next =>
      cases h
      exact .succeeds c _
    next =>
      split at h
      next => cases h
      next hexclusive =>
        cases h
        exact .draws hu (not_not.mp hexclusive)
  next c done position hu =>
    obtain ⟨event,_,rfl⟩ := Option.map_eq_some_iff.mp h
    split
    next row hrow => exact .inserts hu (insertInto_ok hrow)
    next e he =>
      split
      next v _ => exact .taken hu he
      next => exact .fails c
  next c v hu =>
    cases h
    exact .conflicts hu

theorem appendStatement_follows (hs : s.sessions i = some (.unit u))
    (h : s.appendStatement jsonb hashtext i u = some t) :
    Follows (u.Keeps s.db.events ∧ s.positionFree (.statement i) = true) i s t := by
  cases appendStatement_cases h with
  | locksStream hu => exact .silent rfl rfl rfl rfl fun hf => (WorkUnit.keeps_unwritten hu).mp hf.1
  | moves hu hphase =>
    exact .silent rfl rfl rfl rfl fun hf => (WorkUnit.keeps_unwritten hphase).mpr ((WorkUnit.keeps_unwritten hu).mp hf.1)
  | erased hr hname =>
    exact .answered rfl rfl rfl rfl (List.subset_append_left _ _) fun _ _ => ⟨Or.inl ⟨_,hr,hname⟩,nofun⟩
  | @outdated c hu hne =>
    refine .answered rfl rfl rfl rfl (List.subset_append_left _ _) fun hf _ => ⟨Or.inr ?_,nofun⟩
    change (s.view u.saved).currentVersion c.streamName ≠ c.expectedVersion
    rwa [← (WorkUnit.keeps_unwritten hu).mp hf.1]
  | takesOrder hu _ =>
    exact .silent rfl rfl rfl rfl fun hf r hr => Or.inl ((WorkUnit.keeps_unwritten hu).mp hf.1 ▸ hr)
  | holdsOrder hu _ =>
    exact .silent rfl rfl rfl rfl fun hf r hr => Or.inl ((WorkUnit.keeps_unwritten hu).mp hf.1 ▸ hr)
  | succeeds c result =>
    refine .answered rfl rfl rfl rfl (List.subset_append_left _ _) fun _ hconflict => ?_
    obtain ⟨e,he⟩ := hconflict
    cases he
  | draws hu _ =>
    refine .silent rfl rfl rfl rfl fun hf => ?_
    have hk := hf.1
    unfold WorkUnit.Keeps at hk
    rwa [hu] at hk
  | inserts hu hrow =>
    refine .silent rfl rfl rfl rfl fun hf r hr => ?_
    rcases List.mem_append.mp hr with hr | hr
    · refine (hf.1.written hu r hr).imp_right fun hle => ?_
      push_cast
      omega
    · rw [List.mem_singleton.mp hr,(eventRow_columns hrow).2.2]
      right
      push_cast
      omega
  | taken hu htaken =>
    refine .silent rfl rfl rfl rfl fun hf => ?_
    obtain ⟨rfl,r,hr,hname,hversion⟩ := insertInto_unique (positionFree_insert hs hu hf.2) htaken
    refine ⟨rfl,r,?_,hname,by omega⟩
    rcases List.mem_append.mp hr with hr | hr
    · exact List.mem_append_left _ hr
    · rcases hf.1.written hu r hr with hr | hle
      · exact List.mem_append_right _ hr
      · omega
  | fails c =>
    refine .answered rfl rfl rfl rfl (List.subset_append_left _ _) fun _ hconflict => ?_
    obtain ⟨e,he⟩ := hconflict
    cases he
  | conflicts hu =>
    refine .answered rfl rfl rfl rfl (List.subset_append_left _ _) fun hf _ => ?_
    have hk := hf.1
    unfold WorkUnit.Keeps at hk
    rw [hu] at hk
    obtain ⟨rfl,r,hr,hname,hlt⟩ := hk
    refine ⟨Or.inr fun heq => ?_,fun hv => by cases hv⟩
    have hle : r.version ≤ (s.view u.rows).currentVersion r.streamName := le_currentVersion hr
    rw [hname] at hle
    exact absurd (hle.trans_eq heq) (not_le.mpr hlt)

/-- Answered conflicts are justified, and every unit keeps to its append. -/
structure Inv (s : Cluster) : Prop where
  answers : ∀ a ∈ s.answers, a.Conflict → a.Justified
  sessions : s.sessions.All (Session.Keeps s.db.events)

theorem Inv.of_follows (hi : Inv s) {fine : Prop} (h : Follows fine i s t) (hfine : fine) : Inv t := by
  obtain ⟨u,hsessions,hkeeps⟩ := h.unit
  constructor
  · intro a ha
    rcases h.justified hfine a ha with hold | hnew
    · exact hi.answers a hold
    · exact hnew
  · rw [hsessions]
    exact (hi.sessions.imp fun x hx => hx.mono h.events).set (hkeeps hfine)

theorem Inv.of_silent (hi : Inv s) (hg : Grows s t) (hanswers : t.answers = s.answers)
    (hsessions : t.sessions = s.sessions.remove i ∨
      ∃ phase, t.sessions = s.sessions.set i (.importing phase)) : Inv t := by
  refine ⟨hanswers ▸ hi.answers,?_⟩
  have hall := hi.sessions.imp fun x hx => hx.mono hg.events
  rcases hsessions with h | ⟨phase,h⟩ <;> rw [h]
  · exact hall.remove
  · exact hall.set trivial

theorem importStatement_follows {phase : ImportPhase} (h : s.importStatement jsonb p i phase = some t) :
    Grows s t ∧ t.answers = s.answers ∧ (t.sessions = s.sessions.remove i ∨
      ∃ phase, t.sessions = s.sessions.set i (.importing phase)) := by
  cases phase with
  | lockTables batch eventIds lastPosition =>
    simp only [importStatement] at h
    split at h
    · obtain rfl := Option.some.inj h
      exact ⟨.silent rfl rfl rfl,rfl,Or.inr ⟨_,rfl⟩⟩
    · cases h
  | body batch eventIds lastPosition =>
    simp only [importStatement] at h
    split at h
    · obtain rfl := Option.some.inj h
      exact ⟨.silent rfl rfl rfl,rfl,Or.inr ⟨_,rfl⟩⟩
    · obtain rfl := Option.some.inj h
      exact ⟨.silent rfl rfl rfl,rfl,Or.inl rfl⟩
  | commit rows written =>
    obtain rfl := Option.some.inj h
    refine ⟨⟨List.subset_append_left _ _,rfl,[],(List.append_nil _).symm,?_⟩,rfl,Or.inr ⟨_,rfl⟩⟩
    exact fun a ha => absurd ha List.not_mem_nil
  | setval =>
    obtain rfl := Option.some.inj h
    exact ⟨.silent rfl rfl rfl,rfl,Or.inl rfl⟩

/-- What one step does: it grows the tables, and keeps the invariant where the position it takes is free. -/
theorem step_follows {l : ClusterStep} (h : s.step jsonb p hashtext l = some t) :
    Grows s t ∧ (Inv s → s.positionFree l = true → Inv t) := by
  cases l with
  | start i =>
    simp only [step] at h
    split at h
    · obtain rfl := Option.some.inj h
      have hf : Follows True i s (s.put i .opened) := .silent rfl rfl rfl rfl fun _ => trivial
      exact ⟨hf.toGrows,fun hi _ => hi.of_follows hf trivial⟩
    · cases h
  | append i c =>
    simp only [step] at h
    split at h
    next u hs =>
      split at h
      next =>
        obtain rfl := Option.some.inj h
        have hf : Follows True i s (s.put i (u.savepoint c)) := .silent rfl rfl rfl rfl fun _ => rfl
        exact ⟨hf.toGrows,fun hi _ => hi.of_follows hf trivial⟩
      next => cases h
    next => cases h
  | statement i =>
    simp only [step] at h
    split at h
    next u hs =>
      have hf := appendStatement_follows hs h
      exact ⟨hf.toGrows,fun hi hfree => hi.of_follows hf ⟨hi.sessions i _ hs,hfree⟩⟩
    next phase _ =>
      obtain ⟨hg,hanswers,hsessions⟩ := importStatement_follows h
      exact ⟨hg,fun hi _ => hi.of_silent hg hanswers hsessions⟩
    next => cases h
  | fail i =>
    simp only [step] at h
    split at h
    next u _ =>
      obtain ⟨c,_,rfl⟩ := Option.map_eq_some_iff.mp h
      have hf : Follows True i s (s.refuse i u c (.persistence ⟨"EventStore"⟩)) := by
        refine .answered rfl rfl rfl rfl (List.subset_append_left _ _) fun _ hconflict => ?_
        obtain ⟨e,he⟩ := hconflict
        cases he
      exact ⟨hf.toGrows,fun hi _ => hi.of_follows hf trivial⟩
    next => cases h
  | commit i =>
    simp only [step] at h
    split at h
    next u _ =>
      split at h
      next =>
        obtain rfl := Option.some.inj h
        have hg : Grows s {s with
            db := s.view u.rows, locks := s.locks.release i, sessions := s.sessions.remove i} :=
          ⟨List.subset_append_left _ _,rfl,[],(List.append_nil _).symm,fun a ha => absurd ha List.not_mem_nil⟩
        exact ⟨hg,fun hi _ => hi.of_silent hg rfl (Or.inl rfl)⟩
      next => cases h
    next => cases h
  | abort i =>
    simp only [step] at h
    split at h
    · cases h
    · obtain rfl := Option.some.inj h
      have hg : Grows s {s with locks := s.locks.release i, sessions := s.sessions.remove i} :=
        .silent rfl rfl rfl
      exact ⟨hg,fun hi _ => hi.of_silent hg rfl (Or.inl rfl)⟩
  | importBatch i batch decoder =>
    simp only [step] at h
    split at h
    · split at h
      next eventIds lastEvent _ _ =>
        have hg : Grows s t := by
          obtain rfl := Option.some.inj h
          exact .silent rfl rfl rfl
        obtain rfl := Option.some.inj h
        exact ⟨hg,fun hi _ => hi.of_silent hg rfl (Or.inr ⟨_,rfl⟩)⟩
      next => cases h
    · cases h

theorem inv_of_reaches {db : Database}
    (h : (runs jsonb p hashtext db).Reaches (fun s l => s.positionFree l = true) s) : Inv s := by
  refine h.invariant Inv ⟨fun a ha => absurd ha List.not_mem_nil,Fibers.all_empty _⟩ ?_
  intro a l b ha hl hs
  exact (step_follows hs).2 ha hl

/-- What was read at an earlier state is still there when an answer is given. -/
structure Since (s₀ s : Cluster) : Prop where
  events : s₀.db.events ⊆ s.db.events
  length : s₀.answers.length ≤ s.answers.length
  answers : ∀ a ∈ s.answers.drop s₀.answers.length, s₀.db.events ⊆ a.view.events

theorem Since.step {s₀ : Cluster} (h : Since s₀ s) (hg : Grows s t) : Since s₀ t := by
  obtain ⟨new,hnew,hviews⟩ := hg.answers
  refine ⟨fun r hr => hg.events (h.events hr),?_,fun a ha => ?_⟩
  · rw [hnew,List.length_append]
    exact h.length.trans (Nat.le_add_right _ _)
  · rw [hnew,List.drop_append_of_le_length h.length] at ha
    rcases List.mem_append.mp ha with ha | ha
    · exact h.answers a ha
    · exact fun r hr => hviews a ha (h.events hr)

theorem since_of_leads {db : Database} {allow : Cluster → ClusterStep → Prop} {s₀ : Cluster}
    (h : (runs jsonb p hashtext db).Leads allow s₀ s) : Since s₀ s := by
  refine h.invariant (Since s₀) ⟨List.Subset.refl _,le_rfl,fun a ha => ?_⟩ ?_
  · rw [List.drop_length] at ha
    cases ha
  · intro a l b ha _ hs
    exact ha.step (step_follows hs).1

/-- Where the positions that appends insert are free, a conflict is answered for an erased stream or
one with another version than expected only; and one that has expected the version of its stream at
an earlier time is answered when another writer has added to the stream since, or it is erased. -/
theorem conflicts_justified (db : Database) {s₀ s : Cluster}
    (h₀ : (runs jsonb p hashtext db).Reaches (fun s l => s.positionFree l = true) s₀)
    (h : (runs jsonb p hashtext db).Leads (fun s l => s.positionFree l = true) s₀ s) :
    (∀ a ∈ s.answers, a.Conflict → a.Justified) ∧
    ∀ a ∈ s.answers.drop s₀.answers.length, a.Conflict →
      a.call.expectedVersion = s₀.db.currentVersion a.call.streamName →
      a.Erased ∨ ∃ r ∈ a.view.events, r ∉ s₀.db.events ∧ r.streamName = a.call.streamName := by
  have hi := inv_of_reaches (Relation.ReflTransGen.trans h₀ h)
  refine ⟨hi.answers,fun a ha hconflict hexpected => ?_⟩
  refine (hi.answers a (List.mem_of_mem_drop ha) hconflict).1.imp_right fun hne => ?_
  exact exists_new_row ((since_of_leads h).answers a ha) (hexpected ▸ hne)

def placed (version : ℕ) : AppendEvent where
  type := "OrderPlaced"
  schemaVersion := 1
  payload := .null
  metadata := {
    eventId := "e", occurredAt := "2024-05-01T00:00:00.000Z", aggregateName := "order"
    aggregateId := "1", aggregateVersion := Decimal.ofInt version }

/-- An append of one event to a new stream, with some of its statements. -/
def appending (i : ℕ) (streamName : String) (statements : ℕ) : List ClusterStep :=
  .append i ⟨streamName,0,[placed 1]⟩ :: List.replicate statements (.statement i)

/-- Two units append to one stream at the version both have read. -/
def race : List ClusterStep :=
  List.flatten [[.start 0],appending 0 "order-1" 7,[.start 1,.commit 0],appending 1 "order-1" 3]

def primitives : ImportPrimitives := ⟨fun _ => "sum",fun _ => true⟩

theorem race_runs : (((runs some primitives (fun _ => 0) {}).guard positionFree).run race).isSome = true := by
  decide +kernel

def afterRace : Cluster :=
  (((runs some primitives (fun _ => 0) {}).guard positionFree).run race).get race_runs

theorem run_race : ((runs some primitives (fun _ => 0) {}).guard positionFree).run race = some afterRace :=
  (Option.some_get race_runs).symm

def reportsConflict (a : AppendAnswer) : Bool :=
  match a.outcome with
  | .error (.concurrencyConflict _) => true
  | _ => false

theorem conflict_of_reports {a : AppendAnswer} (h : reportsConflict a = true) : a.Conflict := by
  unfold reportsConflict at h
  split at h
  next e he => exact ⟨e,he⟩
  next => cases h

/-- The one that comes second is answered a conflict. -/
theorem conflicts_justified_race : (∃ a ∈ afterRace.answers, a.Conflict) ∧
    ∀ a ∈ afterRace.answers, a.Conflict → a.Justified := by
  have hany : afterRace.answers.any reportsConflict = true := by decide +kernel
  obtain ⟨a,ha,hreports⟩ := List.any_eq_true.mp hany
  refine ⟨⟨a,ha,conflict_of_reports hreports⟩,?_⟩
  exact (conflicts_justified {} Relation.ReflTransGen.refl
    (System.guard_run_reaches (fun _ _ h => h) run_race)).1

def history : HistoryImportBatch where
  importId := "history"
  batchId := "1"
  checksum := "sum"
  events := [{
    position := 1, streamName := "order-1", version := 1, type := "OrderPlaced", schemaVersion := 1
    payload := .null, metadata := (placed 1).metadata }]

/-- An import that has committed and not realigned the sequence. -/
def importing : List ClusterStep :=
  .importBatch 0 history (fun _ => none) :: List.replicate 3 (.statement 0)

/-- An append to a new stream, between the commit of an import and the realignment. -/
def unaligned : List ClusterStep := List.flatten [importing,[.start 1],appending 1 "order-2" 7]

theorem unaligned_runs : ((runs some primitives (fun _ => 0) {}).run unaligned).isSome = true := by
  decide +kernel

def afterUnaligned : Cluster := ((runs some primitives (fun _ => 0) {}).run unaligned).get unaligned_runs

theorem run_unaligned : (runs some primitives (fun _ => 0) {}).run unaligned = some afterUnaligned :=
  (Option.some_get unaligned_runs).symm

/-- A conflict at the version that was expected, of a stream that is not erased. -/
def unfounded (a : AppendAnswer) : Bool :=
  match a.outcome with
  | .error (.concurrencyConflict _) =>
    a.view.erasedStreams = [] && a.view.currentVersion a.call.streamName = a.call.expectedVersion
  | _ => false

theorem not_justified_of_unfounded {a : AppendAnswer} (h : unfounded a = true) :
    a.Conflict ∧ ¬ a.Justified := by
  unfold unfounded at h
  split at h
  next e he =>
    rw [Bool.and_eq_true,decide_eq_true_eq,decide_eq_true_eq] at h
    refine ⟨⟨e,he⟩,?_⟩
    rintro ⟨⟨r,hr,_⟩ | hne,_⟩
    · rw [h.1] at hr
      cases hr
    · exact hne h.2
  next => cases h

/-- The append is answered a conflict at the version it expected. -/
theorem conflict_unjustified : ¬ ∀ (db : Database) (s : Cluster),
    (runs some primitives (fun _ => 0) db).Reachable s → ∀ a ∈ s.answers, a.Conflict → a.Justified := by
  intro h
  have hs := h {} _ (System.run_reachable run_unaligned)
  have hany : afterUnaligned.answers.any unfounded = true := by decide +kernel
  obtain ⟨a,ha,hunfounded⟩ := List.any_eq_true.mp hany
  obtain ⟨hconflict,hnot⟩ := not_justified_of_unfounded hunfounded
  exact hnot (hs a ha hconflict)

end Cluster
end StructureAi.Postgres
