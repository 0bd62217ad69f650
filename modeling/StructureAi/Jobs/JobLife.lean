import StructureAi.Jobs.Scheduler

/-! # The life of a job row

Every write of a scheduler or worker turns one row, seen by its key, and is kept in
the history. What a legal history may hold next is said once; the tables only ever
take turns that keep their history legal.
-/
namespace StructureAi.Jobs
open StructureAi.Foundation

def latestClaim (id : String) : List Write → Option String
  | [] => none
  | .claim id' token :: ws => if id' = id then some token else latestClaim id ws
  | _ :: ws => latestClaim id ws

/-- Whether a row is in the table after the writes. -/
def present (id : String) : List Write → Bool
  | [] => false
  | w :: ws => if w.id = id then !w.removes else present id ws

/-- What may be written after the writes so far. -/
structure Write.Legal (w : Write) (ws : List Write) : Prop where
  fresh : ∀ id, w = .schedule id → ∀ w' ∈ ws, w'.id ≠ id
  freshToken : ∀ id token, w = .claim id token → ∀ w' ∈ ws, w'.id = id → w'.token ≠ some token
  present : w.inserts = false → present w.id ws = true
  /-- A worker's write carries the token of the latest claim, which nothing has ended. -/
  fenced : ∀ token, w.holder = some token →
    latestClaim w.id ws = some token ∧ ∀ w' ∈ ws, w'.id = w.id → w'.releases ≠ some token

def LegalHistory : List Write → Prop
  | [] => True
  | w :: ws => w.Legal ws ∧ LegalHistory ws

section Histories
variable {ws later earlier : List Write} {w : Write} {id token : String}

theorem LegalHistory.of_append (h : LegalHistory (later ++ ws)) : LegalHistory ws := by
  induction later with
  | nil => exact h
  | cons w later ih => exact ih h.2

theorem latestClaim_cons (hw : ∀ token, w ≠ .claim id token) : latestClaim id (w :: ws) = latestClaim id ws := by
  cases w with
  | claim id' token =>
    have hne : id' ≠ id := fun h => hw token (h ▸ rfl)
    rw [latestClaim,if_neg hne]
  | _ => rfl

theorem present_cons_self : present w.id (w :: ws) = !w.removes := by
  rw [present,if_pos rfl]

theorem present_cons_of_ne (h : w.id ≠ id) : present id (w :: ws) = present id ws := by
  rw [present,if_neg h]

theorem exists_of_present (h : present id ws = true) : ∃ w ∈ ws, w.id = id := by
  induction ws with
  | nil => cases h
  | cons w ws ih =>
    by_cases hid : w.id = id
    · exact ⟨w,List.mem_cons_self,hid⟩
    · rw [present_cons_of_ne hid] at h
      obtain ⟨w',hw',hid'⟩ := ih h
      exact ⟨w',List.mem_cons_of_mem w hw',hid'⟩

def releasesOf (id token : String) (ws : List Write) : List Write :=
  ws.filter fun w => w.id = id ∧ w.releases = some token

def removalsOf (id : String) (ws : List Write) : List Write := ws.filter fun w => w.id = id ∧ w.removes

theorem holder_of_releases (h : w.releases = some token) : w.holder = some token := by
  cases w <;> first | exact h | cases h

theorem LegalHistory.releases_le (h : LegalHistory ws) (id token : String) :
    (releasesOf id token ws).length ≤ 1 := by
  induction ws with
  | nil => exact Nat.zero_le 1
  | cons w ws ih =>
    by_cases hw : w.id = id ∧ w.releases = some token
    · have hnone : releasesOf id token ws = [] := by
        rw [releasesOf,List.filter_eq_nil_iff]
        intro w' hw' he
        obtain ⟨hid,hrel⟩ := of_decide_eq_true he
        exact (h.1.fenced token (holder_of_releases hw.2)).2 w' hw' (hid.trans hw.1.symm) hrel
      rw [releasesOf,List.filter_cons_of_pos (by simpa using hw)]
      change (releasesOf id token ws).length + 1 ≤ 1
      rw [hnone]
      exact le_rfl
    · rw [releasesOf,List.filter_cons_of_neg (by simpa using hw)]
      exact ih h.2

/-- From its insertion on, and until its id is given to a recurring schedule, a one-shot job is in
the table or has been removed by one write. -/
theorem LegalHistory.removals (h : LegalHistory (later ++ .schedule id :: earlier))
    (hone : ∀ w ∈ later, w.id = id → w.recurs = false) :
    (removalsOf id later).length = if present id (later ++ .schedule id :: earlier) = true then 0 else 1 := by
  induction later with
  | nil =>
    have hpresent : present id (.schedule id :: earlier) = true := present_cons_self
    rw [List.nil_append,hpresent]
    rfl
  | cons w later ih =>
    have hrest := ih h.2 fun w' hw' => hone w' (List.mem_cons_of_mem w hw')
    by_cases hid : w.id = id
    · -- no second insertion: the id is known, and it is given to no recurring schedule
      have hins : w.inserts = false := by
        have hrec := hone w List.mem_cons_self hid
        cases w with
        | schedule id' =>
          have hne := h.1.fresh id' rfl (.schedule id) (List.mem_append_right later List.mem_cons_self)
          exact absurd hid.symm hne
        | recur id' cron timezone now runAt => cases hrec
        | _ => rfl
      subst hid
      have hbefore : present w.id (later ++ .schedule w.id :: earlier) = true := h.1.present hins
      rw [hbefore,if_pos rfl] at hrest
      rw [List.cons_append,present_cons_self,removalsOf]
      cases hrem : w.removes with
      | true =>
        rw [List.filter_cons_of_pos (by simp [hrem]),List.length_cons]
        change (removalsOf w.id later).length + 1 = _
        rw [hrest]
        rfl
      | false =>
        rw [List.filter_cons_of_neg (by simp [hrem])]
        exact hrest
    · rw [List.cons_append,present_cons_of_ne hid,removalsOf,List.filter_cons_of_neg (by simp [hid])]
      exact hrest

end Histories

/-- The rows by their keys. -/
structure Life where
  rows : String → Option JobRow
  deadLetters : List DeadLetter
  history : List Write

variable (zones : Zones)

/-- What a write makes of its row. -/
inductive Write.Turns : Write → Option JobRow → Option JobRow → Prop
  | schedule (r : JobRow) (queued : r.status = .queued) (once : r.cronExpr = none) :
      Turns (.schedule r.id) none (some r)
  | recur {cron timezone : String} {now : ℤ} (before : Option JobRow) (r : JobRow) (queued : r.status = .queued)
      (expr : r.cronExpr = some cron) (zone : r.cronTimezone = some timezone) (fresh : r.attempt = 0)
      (next : nextOccurrence zones cron timezone now = some (some r.runAt)) :
      Turns (.recur r.id cron timezone now r.runAt) before (some r)
  | cancel (r : JobRow) : Turns (.cancel r.id) (some r) none
  | claim {token : String} (r : JobRow) (leaseUntil : ℤ) :
      Turns (.claim r.id token) (some r) (some (r.claimed leaseUntil token))
  | heartbeat {token : String} (r : JobRow) (held : r.HeldBy token) (leaseUntil : ℤ) :
      Turns (.heartbeat r.id token) (some r) (some {r with leaseExpiresAt := some leaseUntil})
  | completeLast {token : String} {now : ℤ} (r : JobRow) (held : r.HeldBy token)
      (next : completion zones (r.returned token) now = some none) :
      Turns (.complete r.id token now none) (some r) none
  | complete {token : String} {now runAt : ℤ} (r : JobRow) (held : r.HeldBy token)
      (next : completion zones (r.returned token) now = some (some runAt)) :
      Turns (.complete r.id token now (some runAt)) (some r) (some {r.released runAt with attempt := 0})
  | retry {token : String} {now : ℤ} (r : JobRow) (held : r.HeldBy token) (random : ℚ) (lastError : String) :
      Turns (.retry r.id token now (backoffMillis r.attempt random 1000 300000)) (some r)
        (some {r.released (now + backoffMillis r.attempt random 1000 300000) with lastError := some lastError})
  | deadLetter {token : String} (r : JobRow) (held : r.HeldBy token) (letter : DeadLetter) :
      Turns (.deadLetter r.id token letter) (some r) none
  | abandon {token : String} {now : ℤ} (r : JobRow) (held : r.HeldBy token) :
      Turns (.abandon r.id token now) (some r) (some (r.released now))

namespace Life

/-- One write. -/
structure Turn (x : Life) (w : Write) (x' : Life) : Prop where
  turns : w.Turns zones (x.rows w.id) (x'.rows w.id)
  frame : ∀ id, id ≠ w.id → x'.rows id = x.rows id
  history : x'.history = w :: x.history
  deadLetters : x'.deadLetters = x.deadLetters ++ w.letter.toList
  fresh : ∀ id, w = .schedule id → ∀ w' ∈ x.history, w'.id ≠ id
  freshToken : ∀ id token, w = .claim id token → ∀ w' ∈ x.history, w'.id = id → w'.token ≠ some token

/-- The rows are as the history tells. -/
structure Told (x : Life) : Prop where
  key : ∀ id r, x.rows id = some r → r.id = id
  legal : LegalHistory x.history
  present : ∀ id, (x.rows id).isSome = Jobs.present id x.history
  owned : ∀ id r, x.rows id = some r → r.status = .running → ∃ token, r.leaseOwner = some token ∧
    latestClaim id x.history = some token ∧ ∀ w ∈ x.history, w.id = id → w.releases ≠ some token
  letters : x.deadLetters = (x.history.filterMap Write.letter).reverse

/-- A claimed row is as its claim returned it, as long as it runs under the claim. -/
structure Copied (x : Life) (row : QueueRow) : Prop where
  claimed : Write.claim row.id row.leaseOwner ∈ x.history
  copy : ∀ r, x.rows row.id = some r → r.HeldBy row.leaseOwner → r.returned row.leaseOwner = row

end Life

section Turns
variable {zones : Zones} {w : Write} {before after : Option JobRow} {token : String}

theorem Write.Turns.before_isSome (h : w.Turns zones before after) (hins : w.inserts = false) :
    before.isSome = true := by
  cases h with
  | schedule | recur => cases hins
  | _ => rfl

theorem Write.Turns.after_isSome (h : w.Turns zones before after) : after.isSome = !w.removes := by
  cases h <;> rfl

theorem Write.Turns.after_id (h : w.Turns zones before after) {r : JobRow} (hr : after = some r) : r.id = w.id := by
  cases h with
  | cancel | completeLast | deadLetter => cases hr
  | _ =>
    obtain rfl := Option.some.inj hr
    rfl

theorem Write.Turns.held (h : w.Turns zones before after) (hw : w.holder = some token) :
    ∃ r, before = some r ∧ r.HeldBy token := by
  cases h with
  | schedule | recur | cancel | claim => cases hw
  | heartbeat r held | completeLast r held | complete r held | retry r held | deadLetter r held
  | abandon r held =>
    obtain rfl := Option.some.inj hw
    exact ⟨r,rfl,held⟩

theorem Write.Turns.running (h : w.Turns zones before after) {r : JobRow} (hr : after = some r)
    (hrun : r.status = .running) :
    (∃ token, w = .claim w.id token ∧ r.leaseOwner = some token) ∨
      ∃ token r', w.holder = some token ∧ w.releases = none ∧ before = some r' ∧ r'.HeldBy token ∧
        r.leaseOwner = some token ∧ ∀ owner, r.returned owner = r'.returned owner := by
  cases h with
  | cancel | completeLast | deadLetter => cases hr
  | schedule r' queued | recur before r' queued =>
    obtain rfl := Option.some.inj hr
    rw [queued] at hrun
    cases hrun
  | claim r' leaseUntil =>
    obtain rfl := Option.some.inj hr
    exact Or.inl ⟨_,rfl,rfl⟩
  | heartbeat r' held leaseUntil =>
    obtain rfl := Option.some.inj hr
    exact Or.inr ⟨_,r',rfl,rfl,rfl,held,held.2,fun _ => rfl⟩
  | complete | retry | abandon =>
    obtain rfl := Option.some.inj hr
    cases hrun

theorem token_of_releases (h : w.releases = some token) : w.token = some token := by
  cases w <;> first | exact h | cases h

namespace Life
variable {x x' : Life}

theorem Turn.legal (h : x.Turn zones w x') (hx : x.Told) : w.Legal x.history := by
  constructor
  · exact h.fresh
  · exact h.freshToken
  · intro hins
    rw [← hx.present]
    exact h.turns.before_isSome hins
  · intro token hw
    obtain ⟨r,hr,hrun,howner⟩ := h.turns.held hw
    obtain ⟨token',howner',hlatest,hopen⟩ := hx.owned w.id r hr hrun
    rw [howner] at howner'
    obtain rfl := Option.some.inj howner'
    exact ⟨hlatest,hopen⟩

theorem Turn.told (h : x.Turn zones w x') (hx : x.Told) : x'.Told := by
  have hlegal := h.legal hx
  constructor
  · intro id r hr
    by_cases hid : id = w.id
    · subst hid
      exact h.turns.after_id hr
    · rw [h.frame id hid] at hr
      exact hx.key id r hr
  · rw [h.history]
    exact ⟨hlegal,hx.legal⟩
  · intro id
    rw [h.history]
    by_cases hid : id = w.id
    · subst hid
      rw [present_cons_self]
      exact h.turns.after_isSome
    · rw [present_cons_of_ne (Ne.symm hid),h.frame id hid]
      exact hx.present id
  · intro id r hr hrun
    rw [h.history]
    by_cases hid : id = w.id
    · subst hid
      rcases h.turns.running hr hrun with ⟨token,hw,howner⟩ | ⟨token,r',hholder,hopen,hr',hheld,howner,-⟩
      · refine ⟨token,howner,?_,?_⟩
        · rw [hw]
          simp only [latestClaim,Write.id,if_pos]
        · intro w' hw' hid' hrel
          rcases List.mem_cons.mp hw' with rfl | hw'
          · rw [hw] at hrel
            cases hrel
          · exact h.freshToken w.id token hw w' hw' hid' (token_of_releases hrel)
      · obtain ⟨hlatest,hopen'⟩ := hlegal.fenced token hholder
        refine ⟨token,howner,?_,?_⟩
        · rw [latestClaim_cons,hlatest]
          rintro token' he
          rw [he] at hholder
          cases hholder
        · intro w' hw' hid' hrel
          rcases List.mem_cons.mp hw' with rfl | hw'
          · rw [hopen] at hrel
            cases hrel
          · exact hopen' w' hw' hid' hrel
    · rw [h.frame id hid] at hr
      obtain ⟨token,howner,hlatest,hopen⟩ := hx.owned id r hr hrun
      refine ⟨token,howner,?_,?_⟩
      · rw [latestClaim_cons,hlatest]
        rintro token' rfl
        exact hid rfl
      · intro w' hw' hid' hrel
        rcases List.mem_cons.mp hw' with rfl | hw'
        · exact hid hid'.symm
        · exact hopen w' hw' hid' hrel
  · rw [h.deadLetters,h.history,hx.letters]
    cases hl : w.letter with
    | none => rw [List.filterMap_cons_none hl,Option.toList_none,List.append_nil]
    | some letter => rw [List.filterMap_cons_some hl,Option.toList_some,List.reverse_cons]

theorem Turn.copied (h : x.Turn zones w x') {row : QueueRow} (hc : x.Copied row) : x'.Copied row := by
  constructor
  · rw [h.history]
    exact List.mem_cons_of_mem w hc.claimed
  · intro r hr hheld
    by_cases hid : row.id = w.id
    · rw [hid] at hr
      rcases h.turns.running hr hheld.1 with ⟨token,hw,howner⟩ | ⟨token,r',-,-,hr',hheld',howner,hsame⟩
      · rw [hheld.2] at howner
        obtain rfl := Option.some.inj howner
        exact absurd rfl (h.freshToken w.id _ hw _ hc.claimed hid)
      · rw [hheld.2] at howner
        obtain rfl := Option.some.inj howner
        rw [hsame]
        exact hc.copy r' (hid ▸ hr') hheld'
    · rw [h.frame row.id hid] at hr
      exact hc.copy r hr hheld

end Life
end Turns

end StructureAi.Jobs
