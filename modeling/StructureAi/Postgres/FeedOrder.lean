import StructureAi.EventSourcing.EventLogInvariant
import StructureAi.Postgres.ConflictReports

/-! # The order in which positions become visible

A session that has written rows and not committed them holds the lock of the commit order and
keeps imports out, or is an import and keeps appends out. So there is one such session at most,
and what is committed does not change under it. Its rows come after every committed one if they
did when they were written.
-/
namespace StructureAi.Postgres
open StructureAi.Foundation StructureAi.EventSourcing

/-- What unit `i` holds for what it has written, and for the statement it is at. -/
structure WorkUnit.Holds (locks : Locks) (i : ℕ) (u : WorkUnit) : Prop where
  saved : u.saved ⊆ u.rows
  rows : u.rows ≠ [] → locks.order = some i ∧ i ∈ locks.writers
  tookOrder : u.tookOrder = true → locks.order = some i ∧ u.saved = []
  tookTable : u.tookTable = true → u.saved = []
  nextval : ∀ c done, u.phase = .nextval c done → locks.order = some i
  insert : ∀ c done position, u.phase = .insert c done position → locks.order = some i ∧ i ∈ locks.writers

/-- The lock changes of session `i` leave the others what they hold. -/
structure Locks.Others (i : ℕ) (locks locks' : Locks) : Prop where
  order : ∀ j, j ≠ i → locks.order = some j → locks'.order = some j
  exclusive : ∀ j, j ≠ i → locks.exclusive = some j → locks'.exclusive = some j
  writers : ∀ j, j ≠ i → j ∈ locks.writers → j ∈ locks'.writers

theorem Locks.Others.rfl {i : ℕ} {locks : Locks} : locks.Others i locks :=
  ⟨fun _ _ h => h,fun _ _ h => h,fun _ _ h => h⟩

theorem WorkUnit.Holds.others {i j : ℕ} {locks locks' : Locks} {u : WorkUnit} (h : u.Holds locks j)
    (ho : locks.Others i locks') (hj : j ≠ i) : u.Holds locks' j :=
  ⟨h.saved,fun hr => ⟨ho.order j hj (h.rows hr).1,ho.writers j hj (h.rows hr).2⟩,
    fun ht => ⟨ho.order j hj (h.tookOrder ht).1,(h.tookOrder ht).2⟩,h.tookTable,
    fun c done hp => ho.order j hj (h.nextval c done hp),
    fun c done position hp => ⟨ho.order j hj (h.insert c done position hp).1,
      ho.writers j hj (h.insert c done position hp).2⟩⟩

theorem Locks.others_release (locks : Locks) (i : ℕ) : locks.Others i (locks.release i) := by
  have hdrop : ∀ j, j ≠ i → ∀ holder : Option ℕ, holder = some j → Locks.dropHolder i holder = some j := by
    rintro j hj _ rfl
    exact if_neg fun heq => hj (Option.some.inj heq)
  exact ⟨fun j hj h => hdrop j hj _ h,fun j hj h => hdrop j hj _ h,
    fun j hj h => Finset.mem_erase.mpr ⟨hj,h⟩⟩

theorem WorkUnit.Holds.others_releaseTook {i : ℕ} {locks : Locks} {u : WorkUnit} (h : u.Holds locks i) :
    locks.Others i (locks.releaseTook i u) := by
  refine ⟨fun j hj ho => ?_,fun _ _ he => he,fun j hj hw => ?_⟩
  · unfold Locks.releaseTook
    dsimp only
    split
    next ht => exact absurd (Option.some.inj (ho.symm.trans (h.tookOrder ht).1)) hj
    next => exact ho
  · unfold Locks.releaseTook
    dsimp only
    split
    · exact Finset.mem_erase.mpr ⟨hj,hw⟩
    · exact hw

/-- A rollback keeps the locks under which the rows before the savepoint were written. -/
theorem WorkUnit.Holds.rollback {i : ℕ} {locks : Locks} {u : WorkUnit} (h : u.Holds locks i)
    {phase : AppendPhase} (hn : ∀ c done, phase ≠ .nextval c done)
    (hp : ∀ c done position, phase ≠ .insert c done position) :
    (u.rollback phase).Holds (locks.releaseTook i u) i := by
  refine ⟨List.Subset.refl _,fun hsaved => ?_,nofun,nofun,fun c done heq => absurd heq (hn c done),
    fun c done position heq => absurd heq (hp c done position)⟩
  change u.saved ≠ [] at hsaved
  have horder : u.tookOrder = false := by
    by_contra ht
    exact hsaved (h.tookOrder (by simpa using ht)).2
  have htable : u.tookTable = false := by
    by_contra ht
    exact hsaved (h.tookTable (by simpa using ht))
  have hrows : u.rows ≠ [] := fun hnil => hsaved (List.subset_nil.mp (hnil ▸ h.saved))
  simp only [Locks.releaseTook,horder,htable,Bool.false_eq_true,if_false]
  exact h.rows hrows

theorem WorkUnit.Holds.moved {i : ℕ} {locks : Locks} {u : WorkUnit} (h : u.Holds locks i)
    {phase : AppendPhase} (hn : ∀ c done, phase ≠ .nextval c done)
    (hp : ∀ c done position, phase ≠ .insert c done position) : (u.moved phase).Holds locks i :=
  ⟨h.saved,h.rows,h.tookOrder,h.tookTable,fun c done heq => absurd heq (hn c done),
    fun c done position heq => absurd heq (hp c done position)⟩

def Session.pending : Session → List EventRow
  | .unit u => u.rows
  | .importing (.commit rows _) => rows
  | .importing _ => []

/-- What session `i` holds. -/
def Session.Holds (locks : Locks) (i : ℕ) : Session → Prop
  | .unit u => u.Holds locks i
  | .importing (.body _ _ _) | .importing (.commit _ _) => locks.exclusive = some i
  | .importing _ => True

theorem Session.Holds.others {i j : ℕ} {locks locks' : Locks} {x : Session} (h : x.Holds locks j)
    (ho : locks.Others i locks') (hj : j ≠ i) : x.Holds locks' j := by
  cases x with
  | unit u => exact WorkUnit.Holds.others h ho hj
  | importing phase =>
    cases phase with
    | lockTables _ _ _ => trivial
    | body _ _ _ => exact ho.exclusive j hj h
    | commit _ _ => exact ho.exclusive j hj h
    | setval => trivial

/-- Every row of `rows` has a position above those of `events`. -/
def Above (events rows : List EventRow) : Prop := ∀ r ∈ rows, ∀ r' ∈ events, r'.position < r.position

section Import
variable {jsonb : String → Option String}

theorem insertImported_rows {events : List StoredEvent} {db db' : Database}
    (h : db.insertImported jsonb events = (db',.ok ())) : ∃ rows, db'.events = db.events ++ rows ∧
      rows.map EventRow.position = events.map StoredEvent.position := by
  induction events generalizing db with
  | nil =>
    obtain rfl := (Prod.mk.inj h).1
    exact ⟨[],(List.append_nil _).symm,rfl⟩
  | cons event events ih =>
    rw [Database.insertImported,insertRow_eq] at h
    by_cases htype : IsText event.type
    swap
    · rw [if_neg htype] at h
      cases h
    rw [if_pos htype] at h
    cases hrow : insertInto jsonb db.events event.position event.streamName event.version event.toAppend with
    | error e => cases e <;> simp [hrow] at h
    | ok row =>
      rw [hrow] at h
      obtain ⟨rows,hevents,hpositions⟩ := ih h
      refine ⟨row :: rows,?_,?_⟩
      · rw [hevents,List.append_assoc]
        rfl
      · rw [List.map_cons,List.map_cons,hpositions,(Cluster.eventRow_columns (Cluster.insertInto_ok hrow)).1]

theorem le_lastPosition {db : Database} {batch : HistoryImportBatch} {eventIds : List String}
    {r : EventRow} (h : r ∈ db.events) : r.position ≤ (db.importTarget batch eventIds).lastPosition := by
  change r.position ≤ (maxOf EventRow.position db.events).getD 0
  cases hm : maxOf EventRow.position db.events with
  | none =>
    rw [maxOf_eq_none_iff.mp hm] at h
    cases h
  | some m => exact (maxOf_eq_some_iff.mp hm).2 r h

theorem exists_continued {events : List StoredEvent} {target : HistoryImportTarget}
    (h : validateHistoryImportContinuation events target = .ok ()) :
    ∃ target', events.foldlM continueEvent target = .ok target' := by
  unfold validateHistoryImportContinuation at h
  cases hf : events.foldlM continueEvent target with
  | error e =>
    rw [hf] at h
    cases h
  | ok target' => exact ⟨target',rfl⟩

theorem importBody_above {batch : HistoryImportBatch} {eventIds : List String} {lastPosition : ℤ}
    {resultToken : String} {db written : Database} {result : HistoryImportResult}
    (h : Database.importBody jsonb batch eventIds lastPosition resultToken db = (written,.ok result)) :
    Above db.events (written.events.drop db.events.length) := by
  have hsame : written.events = db.events → Above db.events (written.events.drop db.events.length) := by
    intro heq r hr
    rw [heq,List.drop_length] at hr
    cases hr
  unfold Database.importBody at h
  split at h
  next => cases h
  next =>
    split at h
    next => cases h
    next =>
      dsimp only at h
      split at h
      next =>
        split at h
        next => cases h
        next =>
          obtain ⟨rfl,-⟩ := Prod.mk.inj h
          exact hsame rfl
      next =>
        split at h
        next => cases h
        next =>
          split at h
          next => cases h
          next =>
            split at h
            next => cases h
            next hval =>
              split at h
              next => cases h
              next db' hins =>
                obtain ⟨rfl,-⟩ := Prod.mk.inj h
                obtain ⟨rows,hevents,hpositions⟩ := insertImported_rows hins
                obtain ⟨target,hfold⟩ := exists_continued hval
                intro r hr r' hr'
                change r ∈ db'.events.drop db.events.length at hr
                rw [hevents,List.drop_left] at hr
                have hmem : r.position ∈ batch.events.map StoredEvent.position :=
                  hpositions ▸ List.mem_map_of_mem hr
                obtain ⟨e,he,heq⟩ := List.mem_map.mp hmem
                rw [← heq]
                exact (le_lastPosition hr').trans_lt ((continueEvents_numbered hfold).1.bounds he).1

end Import

/-- A unit beside the sequence: its rows have drawn positions, and the one that it is about to insert
is above everything committed. -/
structure WorkUnit.Drawn (db : Database) (u : WorkUnit) : Prop where
  rows : ∀ r ∈ u.rows, r.position ≤ db.sequence
  insert : ∀ c done position, u.phase = .insert c done position →
    position ≤ db.sequence ∧ ∀ r ∈ db.events, r.position < position

theorem WorkUnit.Drawn.mono {db db' : Database} {u : WorkUnit} (h : u.Drawn db)
    (hevents : db'.events = db.events) (hsequence : db.sequence ≤ db'.sequence) : u.Drawn db' := by
  refine ⟨fun r hr => (h.rows r hr).trans hsequence,fun c done position hu => ?_⟩
  obtain ⟨hle,hahead⟩ := h.insert c done position hu
  exact ⟨hle.trans hsequence,hevents ▸ hahead⟩

namespace Cluster
variable {jsonb : String → Option String} {p : ImportPrimitives} {hashtext : String → ℤ}
  {s t : Cluster} {i : ℕ} {u : WorkUnit}

/-- The position that an insert is about to take is above every committed one. -/
def positionAhead (s : Cluster) : ClusterStep → Bool
  | .statement i =>
    match s.sessions i with
    | some (.unit u) =>
      match u.phase with
      | .insert _ _ position => s.db.events.all fun r => r.position < position
      | _ => true
    | _ => true
  | .start _ | .append _ _ | .fail _ | .commit _ | .abort _ | .importBatch _ _ _ => true

theorem positionAhead_insert (hs : s.sessions i = some (.unit u)) {c : AppendCall} {done : ℕ}
    {position : ℤ} (hu : u.phase = .insert c done position)
    (h : s.positionAhead (.statement i) = true) : ∀ r ∈ s.db.events, r.position < position := by
  simpa [positionAhead,hs,hu] using h

structure Ordered (s : Cluster) : Prop where
  holds : ∀ i x, s.sessions i = some x → x.Holds s.locks i
  exclusive : s.locks.exclusive ≠ none → s.locks.writers = ∅
  above : ∀ i x, s.sessions i = some x → Above s.db.events x.pending

theorem Ordered.eq_of_pending (h : Ordered s) {i j : ℕ} {x y : Session} (hx : s.sessions i = some x)
    (hy : s.sessions j = some y) (hxp : x.pending ≠ []) (hyp : y.pending ≠ []) : i = j := by
  have hcases : ∀ i x, s.sessions i = some x → x.pending ≠ [] →
      (s.locks.order = some i ∧ i ∈ s.locks.writers) ∨ s.locks.exclusive = some i := by
    intro i x hx hp
    have hh := h.holds i x hx
    cases x with
    | unit u => exact Or.inl (hh.rows hp)
    | importing phase =>
      cases phase with
      | lockTables _ _ _ => exact absurd rfl hp
      | body _ _ _ => exact Or.inr hh
      | commit _ _ => exact Or.inr hh
      | setval => exact absurd rfl hp
  have hclash : ∀ i j, s.locks.exclusive = some i → j ∉ s.locks.writers := by
    intro i j he
    rw [h.exclusive (he ▸ Option.some_ne_none i)]
    exact Finset.notMem_empty j
  rcases hcases i x hx hxp with ⟨hi,hwi⟩ | hi <;> rcases hcases j y hy hyp with ⟨hj,hwj⟩ | hj
  · exact Option.some.inj (hi.symm.trans hj)
  · exact absurd hwi (hclash j i hj)
  · exact absurd hwj (hclash i j hi)
  · exact Option.some.inj (hi.symm.trans hj)

theorem not_nextval {phase : AppendPhase} (h : phase.unwritten = true) (c : AppendCall) (done : ℕ) :
    phase ≠ .nextval c done := by
  rintro rfl
  cases h

theorem not_insert {phase : AppendPhase} (h : phase.unwritten = true) (c : AppendCall) (done : ℕ) (position : ℤ) :
    phase ≠ .insert c done position := by
  rintro rfl
  cases h

/-- What a step of session `i` does that commits nothing. -/
structure Prepares (fine : Prop) (i : ℕ) (s t : Cluster) : Prop where
  events : t.db.events = s.db.events
  others : s.locks.Others i t.locks
  exclusive : t.locks.exclusive ≠ none → s.locks.exclusive ≠ none ∧ t.locks.writers ⊆ s.locks.writers ∨
    t.locks.writers = ∅
  session : ∀ j, j ≠ i → t.sessions j = s.sessions j
  holds : ∀ x, t.sessions i = some x → x.Holds t.locks i
  above : fine → ∀ x, t.sessions i = some x → Above s.db.events x.pending

theorem Ordered.of_prepares (h : Ordered s) {fine : Prop} (hp : Prepares fine i s t) (hfine : fine) :
    Ordered t := by
  refine ⟨fun j x hx => ?_,fun he => ?_,fun j x hx => ?_⟩
  · by_cases hj : j = i
    · subst hj
      exact hp.holds x hx
    · rw [hp.session j hj] at hx
      exact (h.holds j x hx).others hp.others hj
  · rcases hp.exclusive he with ⟨hs,hsub⟩ | hnone
    · exact Finset.subset_empty.mp (h.exclusive hs ▸ hsub)
    · exact hnone
  · rw [hp.events]
    by_cases hj : j = i
    · subst hj
      exact hp.above hfine x hx
    · rw [hp.session j hj] at hx
      exact h.above j x hx

theorem Prepares.of_unit {fine : Prop} {u' : WorkUnit} (hevents : t.db.events = s.db.events)
    (hothers : s.locks.Others i t.locks)
    (hexclusive : t.locks.exclusive ≠ none → s.locks.exclusive ≠ none ∧ t.locks.writers ⊆ s.locks.writers)
    (hsessions : t.sessions = s.sessions.set i (.unit u')) (hholds : u'.Holds t.locks i)
    (habove : fine → Above s.db.events u'.rows) : Prepares fine i s t := by
  refine ⟨hevents,hothers,fun he => Or.inl (hexclusive he),fun j hj => ?_,fun x hx => ?_,fun hf x hx => ?_⟩
  · rw [hsessions,Fibers.set_of_ne _ _ hj]
  · rw [hsessions,Fibers.set_self] at hx
    obtain rfl := Option.some.inj hx
    exact hholds
  · rw [hsessions,Fibers.set_self] at hx
    obtain rfl := Option.some.inj hx
    exact habove hf

theorem Prepares.put {fine : Prop} {u' : WorkUnit} (hevents : t.db.events = s.db.events)
    (hlocks : t.locks = s.locks) (hsessions : t.sessions = s.sessions.set i (.unit u'))
    (hholds : u'.Holds s.locks i) (habove : Above s.db.events u'.rows) : Prepares fine i s t := by
  refine .of_unit hevents (hlocks ▸ .rfl) (fun he => ⟨hlocks ▸ he,?_⟩) hsessions (hlocks ▸ hholds)
    fun _ => habove
  rw [hlocks]

theorem Prepares.rollback {fine : Prop} {phase : AppendPhase} (hh : u.Holds s.locks i)
    (ha : Above s.db.events u.rows) (hevents : t.db = s.db) (hlocks : t.locks = s.locks.releaseTook i u)
    (hsessions : t.sessions = s.sessions.set i (.unit (u.rollback phase)))
    (hn : ∀ c done, phase ≠ .nextval c done) (hp : ∀ c done position, phase ≠ .insert c done position) :
    Prepares fine i s t := by
  refine .of_unit (by rw [hevents]) (hlocks ▸ hh.others_releaseTook) (fun he => ?_) hsessions
    (hlocks ▸ hh.rollback hn hp) fun _ r hr => ha r (hh.saved hr)
  rw [hlocks] at he ⊢
  refine ⟨he,?_⟩
  unfold Locks.releaseTook
  dsimp only
  split
  · exact Finset.erase_subset _ _
  · exact Finset.Subset.refl _

theorem appendStatement_prepares (ho : Ordered s) (hs : s.sessions i = some (.unit u))
    (h : s.appendStatement jsonb hashtext i u = some t) :
    Prepares (s.positionAhead (.statement i) = true) i s t := by
  have hh : u.Holds s.locks i := ho.holds i _ hs
  have ha : Above s.db.events u.rows := ho.above i _ hs
  cases appendStatement_cases h with
  | locksStream _ =>
    refine .of_unit rfl ⟨fun _ _ h => h,fun _ _ h => h,fun _ _ h => h⟩
      (fun he => ⟨he,Finset.Subset.refl _⟩) rfl ?_ fun _ => ha
    exact {hh with nextval := nofun, insert := nofun}
  | moves _ hphase => exact .put rfl rfl rfl (hh.moved (not_nextval hphase) (not_insert hphase)) ha
  | erased _ _ => exact .rollback hh ha rfl rfl rfl nofun nofun
  | outdated _ _ => exact .rollback hh ha rfl rfl rfl nofun nofun
  | takesOrder _ hfree =>
    have hnil : u.rows = [] := by
      by_contra hne
      rw [(hh.rows hne).1] at hfree
      cases hfree
    refine .of_unit rfl ⟨fun j _ hj => ?_,fun _ _ h => h,fun _ _ h => h⟩
      (fun he => ⟨he,Finset.Subset.refl _⟩) rfl ?_ fun _ => ha
    · rw [hfree] at hj
      cases hj
    · refine ⟨hh.saved,fun hne => absurd hnil hne,fun _ => ⟨rfl,?_⟩,hh.tookTable,fun _ _ _ => rfl,nofun⟩
      exact List.subset_nil.mp (hnil ▸ hh.saved)
  | holdsOrder _ hheld =>
    exact .put rfl rfl rfl {hh with nextval := fun _ _ _ => hheld, insert := nofun} ha
  | succeeds _ _ => exact .put rfl rfl rfl (hh.moved nofun nofun) ha
  | draws hu hnone =>
    have horder := hh.nextval _ _ hu
    refine .of_unit rfl ⟨fun _ _ h => h,fun _ _ h => h,fun _ _ hw => Finset.mem_insert_of_mem hw⟩
      (fun he => absurd hnone he) rfl ?_ fun _ => ha
    refine ⟨hh.saved,fun hne => ⟨horder,Finset.mem_insert_self _ _⟩,hh.tookOrder,fun ht => ?_,nofun,
      fun _ _ _ _ => ⟨horder,Finset.mem_insert_self _ _⟩⟩
    rcases Bool.or_eq_true_iff.mp ht with ht | hnew
    · exact hh.tookTable ht
    · by_contra hne
      have hrows : u.rows ≠ [] := fun hnil => hne (List.subset_nil.mp (hnil ▸ hh.saved))
      exact of_decide_eq_true hnew (hh.rows hrows).2
  | inserts hu hrow =>
    have hheld := hh.insert _ _ _ hu
    refine .of_unit rfl .rfl (fun he => ⟨he,Finset.Subset.refl _⟩) rfl ?_ fun hahead r hr => ?_
    · exact ⟨fun r hr => List.mem_append_left _ (hh.saved hr),fun _ => hheld,hh.tookOrder,hh.tookTable,
        fun _ _ _ => hheld.1,nofun⟩
    · rcases List.mem_append.mp hr with hr | hr
      · exact ha r hr
      · rw [List.mem_singleton.mp hr,(eventRow_columns hrow).1]
        exact positionAhead_insert hs hu hahead
  | taken _ _ => exact .rollback hh ha rfl rfl rfl nofun nofun
  | fails _ => exact .rollback hh ha rfl rfl rfl nofun nofun
  | conflicts _ => exact .put rfl rfl rfl (hh.moved nofun nofun) ha

/-- What a commit of session `i` does. -/
structure Commits (i : ℕ) (x : Session) (s t : Cluster) : Prop where
  events : t.db.events = s.db.events ++ x.pending
  locks : t.locks = s.locks.release i
  session : ∀ j, j ≠ i → t.sessions j = s.sessions j
  ended : ∀ y, t.sessions i = some y → y = .importing .setval

theorem Ordered.of_commits (h : Ordered s) {x : Session} (hs : s.sessions i = some x)
    (hc : Commits i x s t) : Ordered t := by
  refine ⟨fun j y hy => ?_,fun he => ?_,fun j y hy => ?_⟩
  · by_cases hj : j = i
    · subst hj
      rw [hc.ended y hy]
      trivial
    · rw [hc.session j hj] at hy
      rw [hc.locks]
      exact (h.holds j y hy).others (s.locks.others_release i) hj
  · rw [hc.locks] at he ⊢
    have hexclusive : s.locks.exclusive ≠ none := fun hnone => he (by
      change Locks.dropHolder i s.locks.exclusive = none
      rw [hnone]
      rfl)
    change s.locks.writers.erase i = ∅
    rw [h.exclusive hexclusive]
    rfl
  · rw [hc.events]
    by_cases hj : j = i
    · subst hj
      rw [hc.ended y hy]
      exact fun r hr => absurd hr List.not_mem_nil
    · rw [hc.session j hj] at hy
      intro r hr r' hr'
      rcases List.mem_append.mp hr' with hr' | hr'
      · exact h.above j y hy r hr r' hr'
      · refine absurd (h.eq_of_pending hy hs ?_ ?_) hj
        · exact List.ne_nil_of_mem hr
        · exact List.ne_nil_of_mem hr'

def Extends (s t : Cluster) : Prop :=
  ∀ r ∈ t.db.events, r ∈ s.db.events ∨ ∀ r' ∈ s.db.events, r'.position < r.position

theorem Prepares.extends {fine : Prop} (h : Prepares fine i s t) : Extends s t :=
  fun _ hr => Or.inl (h.events ▸ hr)

theorem Ordered.extends_of_commits (h : Ordered s) {x : Session} (hs : s.sessions i = some x)
    (hc : Commits i x s t) : Extends s t := by
  intro r hr
  rw [hc.events] at hr
  exact (List.mem_append.mp hr).imp_right (h.above i x hs r)

theorem prepares_release (ht : t.db = s.db) (hlocks : t.locks = s.locks.release i)
    (hsessions : t.sessions = s.sessions.remove i) : Prepares True i s t := by
  refine ⟨by rw [ht],hlocks ▸ s.locks.others_release i,fun he => ?_,fun j hj => ?_,fun x hx => ?_,
    fun _ x hx => ?_⟩
  · rw [hlocks] at he ⊢
    refine Or.inl ⟨fun hnone => he ?_,Finset.erase_subset _ _⟩
    change Locks.dropHolder i s.locks.exclusive = none
    rw [hnone]
    rfl
  · rw [hsessions,Fibers.remove_of_ne _ hj]
  · rw [hsessions] at hx
    exact absurd rfl (Fibers.remove_cases hx).1
  · rw [hsessions] at hx
    exact absurd rfl (Fibers.remove_cases hx).1

theorem prepares_import {phase : ImportPhase} (hevents : t.db.events = s.db.events)
    (hlocks : t.locks = s.locks) (hsessions : t.sessions = s.sessions.set i (.importing phase))
    (hholds : (Session.importing phase).Holds s.locks i)
    (habove : Above s.db.events (Session.importing phase).pending) : Prepares True i s t := by
  refine ⟨hevents,hlocks ▸ .rfl,fun he => Or.inl ⟨hlocks ▸ he,by rw [hlocks]⟩,fun j hj => ?_,
    fun x hx => ?_,fun _ x hx => ?_⟩
  · rw [hsessions,Fibers.set_of_ne _ _ hj]
  · rw [hsessions,Fibers.set_self] at hx
    obtain rfl := Option.some.inj hx
    rw [hlocks]
    exact hholds
  · rw [hsessions,Fibers.set_self] at hx
    obtain rfl := Option.some.inj hx
    exact habove

theorem importStatement_prepares (ho : Ordered s) {phase : ImportPhase}
    (hs : s.sessions i = some (.importing phase)) (h : s.importStatement jsonb p i phase = some t) :
    Prepares True i s t ∨ Commits i (.importing phase) s t := by
  cases phase with
  | lockTables batch eventIds lastPosition =>
    simp only [importStatement] at h
    split at h
    next hfree =>
      obtain rfl := Option.some.inj h
      refine Or.inl ⟨rfl,⟨fun _ _ h => h,fun j _ hj => ?_,fun _ _ h => h⟩,fun _ => Or.inr hfree.2,
        fun j hj => Fibers.set_of_ne _ _ hj,fun x hx => ?_,fun _ x hx => ?_⟩
      · rw [hfree.1] at hj
        cases hj
      · obtain rfl := Option.some.inj ((Fibers.set_self _ _ _).symm.trans hx)
        exact rfl
      · obtain rfl := Option.some.inj ((Fibers.set_self _ _ _).symm.trans hx)
        exact fun r hr => absurd hr List.not_mem_nil
    next => cases h
  | body batch eventIds lastPosition =>
    simp only [importStatement] at h
    split at h
    next written result hbody =>
      obtain rfl := Option.some.inj h
      have hheld : s.locks.exclusive = some i := ho.holds i _ hs
      exact Or.inl (prepares_import rfl rfl rfl hheld (importBody_above hbody))
    next =>
      obtain rfl := Option.some.inj h
      exact Or.inl (prepares_release rfl rfl rfl)
  | commit rows written =>
    obtain rfl := Option.some.inj h
    refine Or.inr ⟨rfl,rfl,fun j hj => Fibers.set_of_ne _ _ hj,fun y hy => ?_⟩
    exact (Option.some.inj ((Fibers.set_self _ _ _).symm.trans hy)).symm
  | setval =>
    obtain rfl := Option.some.inj h
    refine Or.inl ⟨rfl,.rfl,fun he => Or.inl ⟨he,Finset.Subset.refl _⟩,
      fun j hj => Fibers.remove_of_ne _ hj,fun x hx => ?_,fun _ x hx => ?_⟩
    · exact absurd rfl (Fibers.remove_cases hx).1
    · exact absurd rfl (Fibers.remove_cases hx).1

theorem step_prepares (ho : Ordered s) {l : ClusterStep} (h : s.step jsonb p hashtext l = some t) :
    (∃ i, Prepares (s.positionAhead l = true) i s t) ∨
      ∃ i x, s.sessions i = some x ∧ Commits i x s t := by
  have hweaken : ∀ {i}, Prepares True i s t → Prepares (s.positionAhead l = true) i s t :=
    fun hp => {hp with above := fun _ => hp.above trivial}
  cases l with
  | start i =>
    simp only [step] at h
    split at h
    · obtain rfl := Option.some.inj h
      refine Or.inl ⟨i,.put rfl rfl rfl ?_ fun r hr => absurd hr List.not_mem_nil⟩
      refine ⟨List.Subset.refl _,fun hne => absurd rfl hne,?_,?_,?_,?_⟩ <;> intros <;> contradiction
    · cases h
  | append i c =>
    simp only [step] at h
    split at h
    next u hs =>
      split at h
      next =>
        obtain rfl := Option.some.inj h
        have hh : u.Holds s.locks i := ho.holds i _ hs
        refine Or.inl ⟨i,.put rfl rfl rfl ?_ (ho.above i _ hs)⟩
        refine ⟨List.Subset.refl _,hh.rows,?_,?_,?_,?_⟩ <;> intros <;> contradiction
      next => cases h
    next => cases h
  | statement i =>
    simp only [step] at h
    split at h
    next u hs => exact Or.inl ⟨i,appendStatement_prepares ho hs h⟩
    next phase hs =>
      rcases importStatement_prepares ho hs h with hp | hc
      · exact Or.inl ⟨i,hweaken hp⟩
      · exact Or.inr ⟨i,_,hs,hc⟩
    next => cases h
  | fail i =>
    simp only [step] at h
    split at h
    next u hs =>
      obtain ⟨c,_,rfl⟩ := Option.map_eq_some_iff.mp h
      refine Or.inl ⟨i,.rollback (ho.holds i _ hs) (ho.above i _ hs) rfl rfl rfl ?_ ?_⟩
      · rintro c done ⟨⟩
      · rintro c done position ⟨⟩
    next => cases h
  | commit i =>
    simp only [step] at h
    split at h
    next u hs =>
      split at h
      next =>
        obtain rfl := Option.some.inj h
        refine Or.inr ⟨i,_,hs,rfl,rfl,fun j hj => Fibers.remove_of_ne _ hj,fun y hy => ?_⟩
        exact absurd rfl (Fibers.remove_cases hy).1
      next => cases h
    next => cases h
  | abort i =>
    simp only [step] at h
    split at h
    · cases h
    · obtain rfl := Option.some.inj h
      exact Or.inl ⟨i,hweaken (prepares_release rfl rfl rfl)⟩
  | importBatch i batch decoder =>
    simp only [step] at h
    split at h
    · split at h
      · obtain rfl := Option.some.inj h
        refine Or.inl ⟨i,hweaken (prepares_import rfl rfl rfl trivial ?_)⟩
        exact fun r hr => absurd hr List.not_mem_nil
      · cases h
    · cases h

theorem ordered_step (ho : Ordered s) {l : ClusterStep} (hl : s.positionAhead l = true)
    (h : s.step jsonb p hashtext l = some t) : Ordered t ∧ Extends s t := by
  rcases step_prepares ho h with ⟨i,hp⟩ | ⟨i,x,hs,hc⟩
  · exact ⟨ho.of_prepares hp hl,hp.extends⟩
  · exact ⟨ho.of_commits hs hc,ho.extends_of_commits hs hc⟩

theorem ordered_of_reaches {db : Database}
    (h : (runs jsonb p hashtext db).Reaches (fun s l => s.positionAhead l = true) s) : Ordered s := by
  refine h.invariant Ordered ⟨nofun,fun _ => rfl,nofun⟩ ?_
  intro a l b ha hl hs
  exact (ordered_step ha hl hs).1

/-! ### Runs of appends alone

The sequence is then never behind what is committed or written, and what is committed changes only
under the lock of the commit order. So a drawn position stays ahead until it is inserted.
-/

def isImport : ClusterStep → Bool
  | .importBatch _ _ _ => true
  | .start _ | .append _ _ | .statement _ | .fail _ | .commit _ | .abort _ => false

structure Aligned (s : Cluster) : Prop where
  committed : ∀ r ∈ s.db.events, r.position ≤ s.db.sequence
  sessions : s.sessions.All fun x => ∃ u, x = .unit u ∧ u.Drawn s.db

/-- What a step of session `i` does to the sequence, if it commits nothing. -/
structure Draws (i : ℕ) (s t : Cluster) : Prop where
  events : t.db.events = s.db.events
  sequence : s.db.sequence ≤ t.db.sequence
  session : ∃ u, t.sessions = s.sessions.set i (.unit u) ∧ u.Drawn t.db

theorem Draws.silent {u' : WorkUnit} (hd : u.Drawn s.db) (hdb : t.db = s.db)
    (hsessions : t.sessions = s.sessions.set i (.unit u')) (hrows : u'.rows ⊆ u.rows)
    (hphase : ∀ c done position, u'.phase ≠ .insert c done position) : Draws i s t := by
  refine ⟨by rw [hdb],by rw [hdb],u',hsessions,?_⟩
  rw [hdb]
  exact ⟨fun r hr => hd.rows r (hrows hr),fun c done position heq => absurd heq (hphase c done position)⟩

theorem Aligned.of_draws (ha : Aligned s) (h : Draws i s t) : Aligned t := by
  obtain ⟨u,hsessions,hu⟩ := h.session
  refine ⟨fun r hr => (ha.committed r (h.events ▸ hr)).trans h.sequence,?_⟩
  rw [hsessions]
  refine (ha.sessions.imp ?_).set ⟨u,rfl,hu⟩
  rintro x ⟨u',rfl,hu'⟩
  exact ⟨u',rfl,hu'.mono h.events h.sequence⟩

theorem appendStatement_draws (ha : Aligned s) (hd : u.Drawn s.db) (hsaved : u.saved ⊆ u.rows)
    (h : s.appendStatement jsonb hashtext i u = some t) : Draws i s t := by
  have hrows := List.Subset.refl u.rows
  cases appendStatement_cases h with
  | locksStream _ => exact .silent hd rfl rfl hrows nofun
  | moves _ hphase => exact .silent hd rfl rfl hrows (not_insert hphase)
  | erased _ _ => exact .silent hd rfl rfl hsaved nofun
  | outdated _ _ => exact .silent hd rfl rfl hsaved nofun
  | takesOrder _ _ => exact .silent hd rfl rfl hrows nofun
  | holdsOrder _ _ => exact .silent hd rfl rfl hrows nofun
  | succeeds _ _ => exact .silent hd rfl rfl hrows nofun
  | draws _ _ =>
    have hnext : s.db.sequence < s.db.sequence + 1 := Int.lt_succ _
    refine ⟨rfl,hnext.le,_,rfl,fun r hr => (hd.rows r hr).trans hnext.le,?_⟩
    -- the position that is drawn is the new value of the sequence
    rintro _ _ position ⟨⟩
    exact ⟨le_rfl,fun r hr => (ha.committed r hr).trans_lt hnext⟩
  | inserts hu hrow =>
    refine ⟨rfl,le_rfl,_,rfl,fun r hr => ?_,nofun⟩
    rcases List.mem_append.mp hr with hr | hr
    · exact hd.rows r hr
    · rw [List.mem_singleton.mp hr,(eventRow_columns hrow).1]
      exact (hd.insert _ _ _ hu).1
  | taken _ _ => exact .silent hd rfl rfl hsaved nofun
  | fails _ => exact .silent hd rfl rfl hsaved nofun
  | conflicts _ => exact .silent hd rfl rfl hrows nofun

theorem Aligned.removed (ha : Aligned s) (hdb : t.db = s.db) (hsessions : t.sessions = s.sessions.remove i) :
    Aligned t := by
  constructor
  · rw [hdb]
    exact ha.committed
  · rw [hdb,hsessions]
    exact ha.sessions.remove

/-- A commit that adds rows leaves nobody else at an insert, for it has held the lock. -/
theorem Aligned.committing (ha : Aligned s) (ho : Ordered s) (hs : s.sessions i = some (.unit u)) :
    Aligned {s with db := s.view u.rows, locks := s.locks.release i, sessions := s.sessions.remove i} := by
  obtain ⟨_,⟨⟩,hd⟩ := ha.sessions i _ hs
  constructor
  · intro r hr
    rcases List.mem_append.mp hr with hr | hr
    · exact ha.committed r hr
    · exact hd.rows r hr
  · intro j x hx
    obtain ⟨hj,hx⟩ := Fibers.remove_cases hx
    obtain ⟨u',rfl,hd'⟩ := ha.sessions j x hx
    refine ⟨u',rfl,hd'.rows,fun c done position hu => ?_⟩
    obtain ⟨hle,hahead⟩ := hd'.insert c done position hu
    refine ⟨hle,fun r hr => ?_⟩
    rcases List.mem_append.mp hr with hr | hr
    · exact hahead r hr
    · have hown : s.locks.order = some i := ((ho.holds i _ hs).rows (List.ne_nil_of_mem hr)).1
      have hother : s.locks.order = some j := ((ho.holds j _ hx).insert c done position hu).1
      exact absurd (Option.some.inj (hother.symm.trans hown)) hj

theorem aligned_step (ho : Ordered s) (ha : Aligned s) {l : ClusterStep} (hl : isImport l = false)
    (h : s.step jsonb p hashtext l = some t) : Aligned t := by
  have hunit {i : ℕ} {u : WorkUnit} (hs : s.sessions i = some (.unit u)) : u.Drawn s.db ∧ u.saved ⊆ u.rows := by
    obtain ⟨_,⟨⟩,hd⟩ := ha.sessions i _ hs
    exact ⟨hd,(ho.holds i _ hs).saved⟩
  have hidle (c : AppendCall) (done : ℕ) (position : ℤ) : AppendPhase.idle ≠ .insert c done position := by
    intro heq
    cases heq
  cases l with
  | start i =>
    simp only [step] at h
    split at h
    · obtain rfl := Option.some.inj h
      have hopened : WorkUnit.opened.Drawn s.db :=
        ⟨fun r hr => absurd hr List.not_mem_nil,fun c done position heq => absurd heq (hidle c done position)⟩
      exact ha.of_draws (.silent hopened rfl rfl (List.Subset.refl _) hidle)
    · cases h
  | append i c =>
    simp only [step] at h
    split at h
    next u hs =>
      split at h
      next =>
        obtain rfl := Option.some.inj h
        exact ha.of_draws (.silent (hunit hs).1 rfl rfl (List.Subset.refl _) (not_insert rfl))
      next => cases h
    next => cases h
  | statement i =>
    simp only [step] at h
    split at h
    next u hs => exact ha.of_draws (appendStatement_draws ha (hunit hs).1 (hunit hs).2 h)
    next phase hs =>
      obtain ⟨_,⟨⟩,-⟩ := ha.sessions i _ hs
    next => cases h
  | fail i =>
    simp only [step] at h
    split at h
    next u hs =>
      obtain ⟨c,_,rfl⟩ := Option.map_eq_some_iff.mp h
      exact ha.of_draws (.silent (hunit hs).1 rfl rfl (hunit hs).2 hidle)
    next => cases h
  | commit i =>
    simp only [step] at h
    split at h
    next u hs =>
      split at h
      next =>
        obtain rfl := Option.some.inj h
        exact ha.committing ho hs
      next => cases h
    next => cases h
  | abort i =>
    simp only [step] at h
    split at h
    · cases h
    · obtain rfl := Option.some.inj h
      exact ha.removed rfl rfl
  | importBatch i batch decoder => cases hl

theorem Aligned.ahead (ha : Aligned s) (l : ClusterStep) : s.positionAhead l = true := by
  unfold positionAhead
  split
  next i =>
    split
    next u hs =>
      split
      next c done position hu =>
        obtain ⟨_,⟨⟩,hd⟩ := ha.sessions i _ hs
        exact List.all_eq_true.mpr fun r hr => decide_eq_true ((hd.insert c done position hu).2 r hr)
      next => rfl
    next => rfl
  all_goals rfl

/-- From an aligned database, appends alone insert above everything committed. -/
theorem reaches_ahead {db : Database} (hdb : ∀ r ∈ db.events, r.position ≤ db.sequence)
    (h : (runs jsonb p hashtext db).Reaches (fun _ l => isImport l = false) s) :
    (runs jsonb p hashtext db).Reaches (fun s l => s.positionAhead l = true) s := by
  refine h.strengthen (fun s => Ordered s ∧ Aligned s) ⟨⟨nofun,fun _ => rfl,nofun⟩,hdb,Fibers.all_empty _⟩ ?_
    fun a l ha _ => ha.2.ahead l
  rintro a l b ⟨ho,ha⟩ hl hs
  exact ⟨(ordered_step ho (ha.ahead l) hs).1,aligned_step ho ha hl hs⟩

/-- Where appends insert above everything committed, no position appears below one that a reader has
seen: what has a position below it and is ever committed was visible to that reader. -/
theorem feed_in_order (db : Database) {s₀ s : Cluster}
    (h₀ : (runs jsonb p hashtext db).Reaches (fun s l => s.positionAhead l = true) s₀)
    (h : (runs jsonb p hashtext db).Leads (fun s l => s.positionAhead l = true) s₀ s) :
    ∀ seen ∈ s₀.db.events, ∀ r ∈ s.db.events, r.position < seen.position → r ∈ s₀.db.events := by
  have hrun : Ordered s ∧ Extends s₀ s ∧ s₀.db.events ⊆ s.db.events := by
    refine h.invariant (fun s => Ordered s ∧ Extends s₀ s ∧ s₀.db.events ⊆ s.db.events) ?_ ?_
    · exact ⟨ordered_of_reaches h₀,fun r hr => Or.inl hr,List.Subset.refl _⟩
    · rintro a l b ⟨ha,hext,hsub⟩ hl hs
      obtain ⟨hb,hnext⟩ := ordered_step ha hl hs
      refine ⟨hb,fun r hr => ?_,fun r hr => (step_follows hs).1.events (hsub hr)⟩
      rcases hnext r hr with hr | habove
      · exact hext r hr
      · exact Or.inr fun r' hr' => habove r' (hsub hr')
  intro seen hseen r hr hlt
  rcases hrun.2.1 r hr with hold | habove
  · exact hold
  · exact absurd (habove seen hseen) hlt.le.not_gt

/-- A store with two events of an order, its sequence aligned. -/
def orders : Database where
  events := [⟨1,"order-1",1,"OrderPlaced",1,"null","\x7b\x7d",none⟩,⟨2,"order-1",2,"OrderPaid",1,"null","\x7b\x7d",none⟩]
  sequence := 2

def streamHash (streamName : String) : ℤ := if streamName = "order-2" then 2 else 3

/-- Two units append to different streams and commit. -/
def appends : List ClusterStep := List.flatten [
  [.start 0],appending 0 "order-2" 7,[.start 1],appending 1 "order-3" 3,[.commit 0],
  List.replicate 4 (.statement 1),[.commit 1]]

theorem appends_run : ((runs some primitives streamHash orders).run appends).isSome = true := by
  decide +kernel

def afterAppends : Cluster := ((runs some primitives streamHash orders).run appends).get appends_run

theorem run_appends : (runs some primitives streamHash orders).run appends = some afterAppends :=
  (Option.some_get appends_run).symm

theorem feed_in_order_appends : ∃ seen ∈ orders.events, seen.position = 2 ∧ ∀ r ∈ afterAppends.db.events,
    r.position < seen.position → r ∈ orders.events := by
  refine ⟨_,List.mem_cons_of_mem _ List.mem_cons_self,rfl,?_⟩
  have hplain : ∀ l ∈ appends, isImport l = false := by decide
  have hahead : (runs some primitives streamHash orders).Reaches (fun s l => s.positionAhead l = true) afterAppends :=
    reaches_ahead (by decide) (System.run_reaches (fun l hl _ => hplain l hl) run_appends)
  exact feed_in_order orders Relation.ReflTransGen.refl hahead _ (List.mem_cons_of_mem _ List.mem_cons_self)

/-- An import commits position 1; one append takes 1 and fails, one draws 2 and stops, one inserts 3.
The realignment then goes back to 1, before that append commits. -/
def overtaken : List ClusterStep := List.flatten [
  importing,[.start 1],appending 1 "order-2" 7,appending 1 "order-2" 5,[.abort 1],
  [.start 2],appending 2 "order-2" 6,[.statement 0,.statement 2,.commit 2]]

def late : List ClusterStep := List.flatten [[.start 3],appending 3 "order-3" 7,[.commit 3]]

theorem overtaken_runs : ((runs some primitives (fun _ => 0) {}).run overtaken).isSome = true := by
  decide +kernel

def afterOvertaken : Cluster := ((runs some primitives (fun _ => 0) {}).run overtaken).get overtaken_runs

theorem run_overtaken : (runs some primitives (fun _ => 0) {}).run overtaken = some afterOvertaken :=
  (Option.some_get overtaken_runs).symm

theorem late_runs : ((runs some primitives (fun _ => 0) {}).runFrom afterOvertaken late).isSome = true := by
  decide +kernel

def afterLate : Cluster := ((runs some primitives (fun _ => 0) {}).runFrom afterOvertaken late).get late_runs

theorem run_late : (runs some primitives (fun _ => 0) {}).runFrom afterOvertaken late = some afterLate :=
  (Option.some_get late_runs).symm

/-- A reader has seen position 3 when position 2 becomes visible. -/
theorem feed_out_of_order : ¬ ∀ (db : Database) (s₀ s : Cluster),
    (runs some primitives (fun _ => 0) db).Reachable s₀ →
    (runs some primitives (fun _ => 0) db).Leads (fun _ _ => True) s₀ s →
    ∀ seen ∈ s₀.db.events, ∀ r ∈ s.db.events, r.position < seen.position → r ∈ s₀.db.events := by
  intro h
  have hreach : (runs some primitives (fun _ => 0) {}).Reachable afterOvertaken :=
    System.run_reachable run_overtaken
  have hleads : (runs some primitives (fun _ => 0) {}).Leads (fun _ _ => True) afterOvertaken afterLate :=
    System.runFrom_leads (fun _ _ _ => trivial) run_late
  have hseen : afterOvertaken.db.events.map EventRow.position = [1,3] := by decide +kernel
  have hnow : afterLate.db.events.map EventRow.position = [1,3,2] := by decide +kernel
  have hthree : 3 ∈ afterOvertaken.db.events.map EventRow.position := by
    rw [hseen]
    decide
  have htwo : 2 ∈ afterLate.db.events.map EventRow.position := by
    rw [hnow]
    decide
  obtain ⟨seen,hmem,hthree⟩ := List.mem_map.mp hthree
  obtain ⟨r,hr,htwo⟩ := List.mem_map.mp htwo
  have hlate := h {} _ _ hreach hleads seen hmem r hr (by omega)
  have hold := List.mem_map_of_mem (f := EventRow.position) hlate
  rw [hseen,htwo] at hold
  revert hold
  decide

end Cluster
end StructureAi.Postgres
