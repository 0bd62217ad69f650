import StructureAi.Mailer.Smtp

/-! # What an SMTP session tells and believes

Nothing of the message is written in the clear unless that is allowed. The lines queued before the
upgrade stay in the queue, and so does the beginning of a line: the replies to what is written inside
TLS were received there just if nothing was left then.
-/
namespace StructureAi.Mailer
open StructureAi.Foundation

section Contract
variable (platform : Platform) (options : SmtpOptions) (s : Session)

/-- The line says something of the credentials or of the message. -/
def Command.sensitive : Command → Bool
  | ehlo _ | starttls | quit => false
  | authPlain _ | authLogin | credential _ | mail _ | rcpt _ | data | message _ => true

def WrittenInTls : Prop := ∀ w ∈ s.written, w.2.sensitive = true → w.1 = .tls

def Received.InTls (line : Received) : Prop := ∀ c ∈ line, c.2 = true

def Judged.InTls (j : Judged) : Prop := ∀ line ∈ j.reply, line.InTls

/-- What is written inside TLS is answered inside TLS. -/
def AnsweredInTls : Prop := ∀ j ∈ s.judged, j.asked = some .tls → j.InTls

/-- Nothing that was written inside TLS has been answered yet. -/
def Unanswered : Prop := ∀ j ∈ s.judged, j.asked ≠ some .tls

/-- The session speaks to the encrypted peer only. -/
structure Confined : Prop where
  written : WrittenInTls s
  answered : AnsweredInTls s

end Contract

namespace Session
variable {platform : Platform} {options : SmtpOptions} {message : EmailMessage} {s t : Session}

section Writing

def isDelivery : Phase → Bool
  | .greeting | .ehlo | .starttls | .handshake | .secureEhlo | .ended _ => false
  | .authPlain | .authLogin | .authUser | .authPassword | .mail | .recipient _ | .data | .message | .quit => true

/-- The messages are delivered, and were, inside TLS. -/
structure Sealed (s : Session) : Prop where
  written : WrittenInTls s
  delivery : isDelivery s.phase = true → s.socket = .tls

theorem Sealed.send (h : Sealed s) {command : Command} {phase : Phase} (hs : command.sensitive = true ∨
    isDelivery phase = true → s.socket = .tls) :
    Sealed (s.send command phase) where
  written := by
    intro w hw hsensitive
    rcases List.mem_append.mp hw with hw | hw
    · exact h.written w hw hsensitive
    · rw [List.mem_singleton.mp hw] at hsensitive ⊢
      exact hs (Or.inl hsensitive)
  delivery := fun hd => hs (Or.inr hd)

theorem Sealed.stop (h : Sealed s) (outcome : Outcome) : Sealed (s.stop outcome) where
  written := h.written
  delivery := by
    intro hd
    cases hd

theorem Sealed.deliver (h : Sealed s) (htls : s.socket = .tls) : Sealed (s.deliver platform options message) := by
  unfold Session.deliver
  split
  · exact h.send fun _ => htls
  · split
    · exact h.stop _
    · split
      · exact h.send fun _ => htls
      · split
        · exact h.send fun _ => htls
        · exact h.stop _

theorem Sealed.finishOpening (h : Sealed s) (hplain : plaintextAllowed platform options = false) :
    Sealed (s.finishOpening platform options message) := by
  unfold Session.finishOpening
  split
  · exact h.stop _
  next hsocket =>
    have htls : s.socket = .tls := by
      by_contra hne
      exact hsocket ⟨hne,hplain⟩
    split
    · exact h.stop _
    · exact Sealed.deliver ⟨h.written,h.delivery⟩ htls

theorem Sealed.accept (h : Sealed s) (hplain : plaintextAllowed platform options = false) (reply : List Received) :
    Sealed (s.accept platform options message reply) := by
  have hoffer : Sealed (s.offer platform reply) := ⟨h.written,h.delivery⟩
  have htls : isDelivery s.phase = true → s.socket = .tls := h.delivery
  unfold Session.accept
  cases hphase : s.phase with
  | greeting =>
    apply h.send
    rintro (hs | hs) <;> cases hs
  | ehlo =>
    dsimp only
    split
    · apply hoffer.send
      rintro (hs | hs) <;> cases hs
    · exact hoffer.finishOpening hplain
  | starttls => exact ⟨h.written,fun hd => by cases hd⟩
  | secureEhlo => exact hoffer.finishOpening hplain
  | authLogin | authUser | authPlain | authPassword | data | message =>
    rw [hphase] at htls
    exact h.send fun _ => htls rfl
  | mail =>
    rw [hphase] at htls
    cases hrecipients : message.recipients <;> exact h.send fun _ => htls rfl
  | recipient rest =>
    rw [hphase] at htls
    cases rest <;> exact h.send fun _ => htls rfl
  | quit => exact h.stop _
  | handshake | ended outcome => exact h

theorem Sealed.judge (h : Sealed s) (hplain : plaintextAllowed platform options = false) (code : ℕ) (reply : List Received) :
    Sealed (s.judge platform options message code reply) := by
  have hjudged : Sealed {s with judged := s.judged ++ [⟨s.asked,reply⟩]} := ⟨h.written,h.delivery⟩
  unfold Session.judge
  split
  · exact h.stop _
  · dsimp only
    split
    · exact hjudged.stop _
    · exact hjudged.accept hplain reply

theorem Sealed.take (h : Sealed s) (hplain : plaintextAllowed platform options = false) (line : Received) :
    Sealed (s.take platform options message line) := by
  unfold Session.take
  split
  · exact h.stop _
  · exact ⟨h.written,h.delivery⟩
  · have hlines : Sealed {s with lines := []} := ⟨h.written,h.delivery⟩
    exact hlines.judge hplain _ _

theorem Sealed.step (h : Sealed s) (hplain : plaintextAllowed platform options = false) {l : Label}
    (hs : s.step platform options message l = some t) : Sealed t := by
  cases l with
  | data chunk =>
    change (if _ then _ else _) = _ at hs
    split at hs
    · obtain rfl := Option.some.inj hs
      exact ⟨h.written,h.delivery⟩
    · cases hs
  | error =>
    obtain rfl := Option.some.inj hs
    exact ⟨h.written,h.delivery⟩
  | timeout =>
    change (if _ then _ else _) = _ at hs
    split at hs
    · obtain rfl := Option.some.inj hs
      exact h.stop _
    · cases hs
  | secure =>
    simp only [Session.step] at hs
    split at hs
    · obtain rfl := Option.some.inj hs
      have hsecure : Sealed {s with
          socket := .tls
          listening := true
          leftover := s.queue ++ if s.buffer = [] then [] else [s.buffer]} := ⟨h.written,fun _ => rfl⟩
      exact hsecure.send fun _ => rfl
    · cases hs
  | insecure =>
    simp only [Session.step] at hs
    split at hs
    · obtain rfl := Option.some.inj hs
      exact h.stop _
    · cases hs
  | read =>
    change s.read platform options message = _ at hs
    unfold Session.read at hs
    split at hs
    · split at hs
      next line queue _ =>
        obtain rfl := Option.some.inj hs
        have hqueue : Sealed {s with queue := queue} := ⟨h.written,h.delivery⟩
        exact hqueue.take hplain line
      next =>
        split at hs
        · obtain rfl := Option.some.inj hs
          exact h.stop _
        · cases hs
    · cases hs

theorem sealed_opening (options : SmtpOptions) : Sealed (opening options) where
  written := by
    intro w hw
    cases hw
  delivery := by
    intro hd
    cases hd

end Writing
section Upgrading

/-- Only a plain session is upgraded, and between two replies. -/
structure Upgrading (s : Session) : Prop where
  plain : s.phase = .starttls ∨ s.phase = .handshake → s.socket = .plain
  lines : s.phase = .handshake → s.lines = []

def isUpgrade : Phase → Bool
  | .starttls | .handshake => true
  | _ => false

theorem upgrading_of (h : isUpgrade s.phase = false) : Upgrading s where
  plain := by
    rintro (hp | hp) <;> rw [hp] at h <;> cases h
  lines := by
    intro hp
    rw [hp] at h
    cases h

theorem isUpgrade_deliver : isUpgrade (s.deliver platform options message).phase = false := by
  unfold Session.deliver
  split
  · rfl
  · split
    · rfl
    · split
      · rfl
      · split <;> rfl

theorem isUpgrade_finishOpening : isUpgrade (s.finishOpening platform options message).phase = false := by
  unfold Session.finishOpening
  split
  · rfl
  · split
    · rfl
    · exact isUpgrade_deliver

theorem Upgrading.accept (h : Upgrading s) (hlines : s.lines = []) (reply : List Received) :
    Upgrading (s.accept platform options message reply) := by
  unfold Session.accept
  cases hphase : s.phase with
  | ehlo =>
    dsimp only
    split
    next hupgrade =>
      refine ⟨fun _ => ?_,fun hp => by cases hp⟩
      cases hsocket : s.socket with
      | plain => exact hsocket
      | tls => exact absurd hsocket hupgrade.2.2
    next => exact upgrading_of isUpgrade_finishOpening
  | starttls => exact ⟨fun _ => h.plain (Or.inl hphase),fun _ => hlines⟩
  | secureEhlo => exact upgrading_of isUpgrade_finishOpening
  | mail =>
    dsimp only
    cases hrecipients : message.recipients <;> exact upgrading_of rfl
  | recipient rest => cases rest <;> exact upgrading_of rfl
  | greeting | authPlain | authLogin | authUser | authPassword | data | message | quit => exact upgrading_of rfl
  | handshake | ended outcome => exact h

theorem Upgrading.judge (h : Upgrading s) (hlines : s.lines = []) (code : ℕ) (reply : List Received) :
    Upgrading (s.judge platform options message code reply) := by
  have hjudged : Upgrading {s with judged := s.judged ++ [⟨s.asked,reply⟩]} := ⟨h.plain,h.lines⟩
  unfold Session.judge
  split
  · exact upgrading_of rfl
  · dsimp only
    split
    · exact upgrading_of rfl
    · exact hjudged.accept hlines reply

theorem Upgrading.take (h : Upgrading s) (hawaiting : s.awaiting = true) (line : Received) :
    Upgrading (s.take platform options message line) := by
  have hphase : s.phase ≠ .handshake := by
    intro hp
    rw [Session.awaiting,hp] at hawaiting
    cases hawaiting
  unfold Session.take
  split
  · exact upgrading_of rfl
  · exact ⟨h.plain,fun hp => absurd hp hphase⟩
  · have hlines : Upgrading {s with lines := []} := ⟨h.plain,fun _ => rfl⟩
    exact hlines.judge rfl _ _

theorem upgrading_opening (options : SmtpOptions) : Upgrading (opening options) := upgrading_of rfl

end Upgrading

section Answers

/-- What decides which characters a reply consists of is the same. -/
structure Same (s t : Session) : Prop where
  socket : t.socket = s.socket
  buffer : t.buffer = s.buffer
  queue : t.queue = s.queue
  lines : t.lines = s.lines
  judged : t.judged = s.judged
  leftover : t.leftover = s.leftover
  asked : t.asked = s.asked ∨ t.asked = some s.socket

theorem same_send (s : Session) (command : Command) (phase : Phase) : Same s (s.send command phase) :=
  ⟨rfl,rfl,rfl,rfl,rfl,rfl,Or.inr rfl⟩

theorem same_stop (s : Session) (outcome : Outcome) : Same s (s.stop outcome) := ⟨rfl,rfl,rfl,rfl,rfl,rfl,Or.inl rfl⟩

theorem same_deliver (s : Session) : Same s (s.deliver platform options message) := by
  unfold Session.deliver
  split
  · exact same_send ..
  · split
    · exact same_stop ..
    · split
      · exact same_send ..
      · split
        · exact same_send ..
        · exact same_stop ..

theorem same_finishOpening (s : Session) : Same s (s.finishOpening platform options message) := by
  unfold Session.finishOpening
  split
  · exact same_stop ..
  · split
    · exact same_stop ..
    · obtain ⟨h1,h2,h3,h4,h5,h6,h7⟩ := @same_deliver platform options message {s with opened := true}
      exact ⟨h1,h2,h3,h4,h5,h6,h7⟩

theorem same_accept (s : Session) (reply : List Received) : Same s (s.accept platform options message reply) := by
  have hfinish : Same s ((s.offer platform reply).finishOpening platform options message) := by
    obtain ⟨h1,h2,h3,h4,h5,h6,h7⟩ := @same_finishOpening platform options message (s.offer platform reply)
    exact ⟨h1,h2,h3,h4,h5,h6,h7⟩
  unfold Session.accept
  cases s.phase with
  | ehlo =>
    dsimp only
    split
    · exact ⟨rfl,rfl,rfl,rfl,rfl,rfl,Or.inr rfl⟩
    · exact hfinish
  | secureEhlo => exact hfinish
  | mail =>
    dsimp only
    cases message.recipients <;> exact same_send ..
  | recipient rest => cases rest <;> exact same_send ..
  | greeting | authPlain | authLogin | authUser | authPassword | data | message => exact same_send ..
  | quit => exact same_stop ..
  | starttls | handshake | ended outcome => exact ⟨rfl,rfl,rfl,rfl,rfl,rfl,Or.inl rfl⟩

def IsClear (line : Received) : Prop := ∀ c ∈ line, c.2 = false

def BeginsClear (line : Received) : Prop := ∃ c rest, line = c :: rest ∧ c.2 = false

/-- The next line to be read begins in the clear, or is empty. -/
def FrontClear (s : Session) : Prop :=
  match s.lines,s.queue with
  | line :: _,_ => BeginsClear line
  | [],line :: _ => line = [] ∨ BeginsClear line
  | [],[] => BeginsClear s.buffer

/-- A session that is not encrypted yet. -/
structure Plain (s : Session) : Prop where
  socket : s.socket = .plain
  buffer : IsClear s.buffer
  queue : ∀ line ∈ s.queue, IsClear line
  leftover : s.leftover = []
  asked : s.asked ≠ some .tls
  unanswered : Unanswered s

/-- An encrypted session in which nothing was left over from before. -/
structure Clean (s : Session) : Prop where
  socket : s.socket = .tls
  buffer : s.buffer.InTls
  queue : ∀ line ∈ s.queue, line.InTls
  lines : ∀ line ∈ s.lines, line.InTls
  leftover : s.leftover = []
  answered : AnsweredInTls s

/-- An encrypted session in which something was left over from before. -/
structure Shifted (s : Session) : Prop where
  socket : s.socket = .tls
  leftover : s.leftover ≠ []
  asked : s.asked = some .tls
  state : (∃ j ∈ s.judged, j.asked = some .tls ∧ ∃ line ∈ j.reply, BeginsClear line) ∨
    Unanswered s ∧ (s.awaiting = false ∨ FrontClear s)

def Kept (s : Session) : Prop := Plain s ∨ Clean s ∨ Shifted s

theorem BeginsClear.not_inTls {line : Received} (h : BeginsClear line) : ¬ line.InTls := by
  obtain ⟨c,rest,rfl,hc⟩ := h
  intro hin
  rw [hin c List.mem_cons_self] at hc
  cases hc

/-- Replies come from inside TLS just if nothing was left over, unless none was judged yet. -/
theorem Kept.answeredInTls_iff (h : Kept s) : AnsweredInTls s ↔ s.leftover = [] ∨ Unanswered s := by
  rcases h with h | h | h
  · exact iff_of_true (fun j hj ha => absurd ha (h.unanswered j hj)) (Or.inl h.leftover)
  · exact iff_of_true h.answered (Or.inl h.leftover)
  · rcases h.state with ⟨j,hj,ha,line,hline,hclear⟩ | ⟨hu,-⟩
    · apply iff_of_false
      · exact fun hin => hclear.not_inTls (hin j hj ha line hline)
      · rintro (hl | hu)
        · exact h.leftover hl
        · exact hu j hj ha
    · exact iff_of_true (fun j hj ha => absurd ha (hu j hj)) (Or.inr hu)

theorem Plain.same (h : Plain s) (hst : Same s t) : Plain t where
  socket := hst.socket.trans h.socket
  buffer := hst.buffer ▸ h.buffer
  queue := hst.queue ▸ h.queue
  leftover := hst.leftover.trans h.leftover
  asked := by
    rcases hst.asked with ha | ha
    · rw [ha]
      exact h.asked
    · rw [ha,h.socket]
      simp
  unanswered := by
    unfold Unanswered
    rw [hst.judged]
    exact h.unanswered

theorem Clean.same (h : Clean s) (hst : Same s t) : Clean t where
  socket := hst.socket.trans h.socket
  buffer := hst.buffer ▸ h.buffer
  queue := hst.queue ▸ h.queue
  lines := hst.lines ▸ h.lines
  leftover := hst.leftover.trans h.leftover
  answered := by
    unfold AnsweredInTls
    rw [hst.judged]
    exact h.answered

theorem Kept.stop (h : Kept s) (outcome : Outcome) : Kept (s.stop outcome) := by
  rcases h with h | h | h
  · exact Or.inl (h.same (same_stop ..))
  · exact Or.inr (Or.inl (h.same (same_stop ..)))
  · refine Or.inr (Or.inr {h with state := ?_})
    rcases h.state with hj | ⟨hu,-⟩
    · exact Or.inl hj
    · exact Or.inr ⟨hu,Or.inl rfl⟩

theorem Plain.judge (h : Plain s) (code : ℕ) (reply : List Received) : Plain (s.judge platform options message code reply) := by
  have hjudged : Plain {s with judged := s.judged ++ [⟨s.asked,reply⟩]} := by
    refine {h with unanswered := ?_}
    intro j hj
    rcases List.mem_append.mp hj with hj | hj
    · exact h.unanswered j hj
    · rw [List.mem_singleton.mp hj]
      exact h.asked
  unfold Session.judge
  split
  · exact h.same (same_stop ..)
  · dsimp only
    split
    · exact hjudged.same (same_stop ..)
    · exact hjudged.same (same_accept ..)

theorem Plain.take (h : Plain s) (line : Received) : Plain (s.take platform options message line) := by
  unfold Session.take
  split
  · exact h.same (same_stop ..)
  · exact {h with}
  · have hlines : Plain {s with lines := []} := {h with}
    exact hlines.judge _ _

theorem Clean.judge (h : Clean s) (code : ℕ) {reply : List Received} (hr : ∀ line ∈ reply, line.InTls) :
    Clean (s.judge platform options message code reply) := by
  have hjudged : Clean {s with judged := s.judged ++ [⟨s.asked,reply⟩]} := by
    refine {h with answered := ?_}
    intro j hj ha
    rcases List.mem_append.mp hj with hj | hj
    · exact h.answered j hj ha
    · rw [List.mem_singleton.mp hj]
      exact hr
  unfold Session.judge
  split
  · exact h.same (same_stop ..)
  · dsimp only
    split
    · exact hjudged.same (same_stop ..)
    · exact hjudged.same (same_accept ..)

theorem Clean.take (h : Clean s) {line : Received} (hline : line.InTls) : Clean (s.take platform options message line) := by
  have happend : ∀ l ∈ s.lines ++ [line], l.InTls := by
    intro l hl
    rcases List.mem_append.mp hl with hl | hl
    · exact h.lines l hl
    · rwa [List.mem_singleton.mp hl]
  unfold Session.take
  split
  · exact h.same (same_stop ..)
  · exact {h with lines := happend}
  · have hlines : Clean {s with lines := []} := {h with lines := fun l hl => absurd hl List.not_mem_nil}
    exact hlines.judge _ happend

/-- The session goes on on the same socket, and nothing of what was judged is forgotten. -/
structure Later (s t : Session) : Prop where
  socket : t.socket = s.socket
  leftover : t.leftover = s.leftover
  judged : s.judged <+: t.judged
  asked : t.asked = s.asked ∨ t.asked = some s.socket

theorem Same.later (h : Same s t) : Later s t := ⟨h.socket,h.leftover,h.judged ▸ List.prefix_rfl,h.asked⟩

theorem later_judge (s : Session) (code : ℕ) (reply : List Received) :
    Later s (s.judge platform options message code reply) := by
  unfold Session.judge
  split
  · exact (same_stop ..).later
  · dsimp only
    split
    · exact ⟨rfl,rfl,List.prefix_append ..,Or.inl rfl⟩
    · obtain ⟨h1,-,-,-,h5,h6,h7⟩ := @same_accept platform options message
        {s with judged := s.judged ++ [⟨s.asked,reply⟩]} reply
      exact ⟨h1,h6,h5 ▸ List.prefix_append ..,h7⟩

theorem later_take (s : Session) (line : Received) : Later s (s.take platform options message line) := by
  unfold Session.take
  split
  · exact (same_stop ..).later
  · exact ⟨rfl,rfl,List.prefix_rfl,Or.inl rfl⟩
  · obtain ⟨h1,h2,h3,h4⟩ := @later_judge platform options message {s with lines := []} _ (s.lines ++ [line])
    exact ⟨h1,h2,h3,h4⟩

/-- A reply to what was written inside TLS began in the clear. -/
def Deceived (s : Session) : Prop := ∃ j ∈ s.judged, j.asked = some .tls ∧ ∃ line ∈ j.reply, BeginsClear line

theorem Shifted.later (h : Shifted s) (hst : Later s t) (ht : Deceived t ∨ Unanswered t ∧ (t.awaiting = false ∨ FrontClear t)) :
    Shifted t where
  socket := hst.socket.trans h.socket
  leftover := hst.leftover ▸ h.leftover
  asked := by
    rcases hst.asked with ha | ha
    · exact ha.trans h.asked
    · rw [ha,h.socket]
  state := ht

theorem Deceived.later (h : Deceived s) (hst : Later s t) : Deceived t := by
  obtain ⟨j,hj,h⟩ := h
  exact ⟨j,hst.judged.subset hj,h⟩

theorem deceived_judge (hasked : s.asked = some .tls) (hu : Unanswered s) (code : ℕ) {reply : List Received}
    (hr : ∃ line ∈ reply, BeginsClear line) : Deceived (s.judge platform options message code reply) ∨
      Unanswered (s.judge platform options message code reply) ∧ (s.judge platform options message code reply).awaiting =
        false := by
  have hjudged : Deceived {s with judged := s.judged ++ [⟨s.asked,reply⟩]} :=
    ⟨_,List.mem_append_right _ List.mem_cons_self,hasked,hr⟩
  unfold Session.judge
  split
  · exact Or.inr ⟨hu,rfl⟩
  · dsimp only
    split
    · exact Or.inl hjudged
    · exact Or.inl (hjudged.later (same_accept ..).later)

theorem beginsClear_of_matchLine {line : Received} {r : ℕ × Bool} (h : line = [] ∨ BeginsClear line)
    (hm : matchLine line.text = some r) :
    BeginsClear line := by
  rcases h with rfl | h
  · cases hm
  · exact h

theorem Shifted.take (h : Shifted s) (hawaiting : s.awaiting = true) {line : Received} {queue : List Received}
    (hq : s.queue = line :: queue) :
    Shifted ({s with queue := queue}.take platform options message line) := by
  have hlater : Later s ({s with queue := queue}.take platform options message line) := by
    obtain ⟨h1,h2,h3,h4⟩ := @later_take platform options message {s with queue := queue} line
    exact ⟨h1,h2,h3,h4⟩
  refine h.later hlater ?_
  rcases h.state with hj | ⟨hu,hfront⟩
  · exact Or.inl (Deceived.later hj hlater)
  · have hfront := hfront.resolve_left (by rw [hawaiting]; simp)
    -- the first line of the reply, with the line that is taken
    have hfirst : ∀ r, matchLine line.text = some r → ∃ l rest, s.lines ++ [line] = l :: rest ∧ BeginsClear l := by
      intro r hm
      cases hlines : s.lines with
      | nil =>
        simp only [FrontClear,hlines,hq] at hfront
        exact ⟨line,[],rfl,beginsClear_of_matchLine hfront hm⟩
      | cons l rest =>
        simp only [FrontClear,hlines] at hfront
        exact ⟨l,rest ++ [line],rfl,hfront⟩
    unfold Session.take
    split
    next => exact Or.inr ⟨hu,Or.inl rfl⟩
    next hm =>
      obtain ⟨l,rest,hl,hclear⟩ := hfirst _ hm
      refine Or.inr ⟨hu,Or.inr ?_⟩
      simp only [FrontClear,hl]
      exact hclear
    next code hm =>
      obtain ⟨l,rest,hl,hclear⟩ := hfirst _ hm
      have hmem : ∃ line' ∈ s.lines ++ [line], BeginsClear line' := ⟨l,hl ▸ List.mem_cons_self,hclear⟩
      rcases @deceived_judge platform options message
        {s with queue := queue,lines := []} h.asked hu code _ hmem with hd | ⟨hu,ha⟩
      · exact Or.inl hd
      · exact Or.inr ⟨hu,Or.inl ha⟩

theorem Kept.read (h : Kept s) (hs : s.read platform options message = some t) : Kept t := by
  unfold Session.read at hs
  split at hs
  next hawaiting =>
    split at hs
    next line queue hq =>
      obtain rfl := Option.some.inj hs
      rcases h with h | h | h
      · have hqueue : Plain {s with queue := queue} :=
          {h with queue := fun l hl => h.queue l (hq ▸ List.mem_cons_of_mem _ hl)}
        exact Or.inl (hqueue.take line)
      · have hqueue : Clean {s with queue := queue} :=
          {h with queue := fun l hl => h.queue l (hq ▸ List.mem_cons_of_mem _ hl)}
        exact Or.inr (Or.inl (hqueue.take (h.queue line (hq ▸ List.mem_cons_self))))
      · exact Or.inr (Or.inr (h.take hawaiting hq))
    next =>
      split at hs
      · obtain rfl := Option.some.inj hs
        exact h.stop _
      · cases hs
  next => cases hs

theorem mem_splitLines {received : Received} {c : Char × Bool} :
    ((∃ line ∈ (splitLines received).1, c ∈ line) ∨ c ∈ (splitLines received).2) → c ∈ received := by
  induction received with
  | nil => simp [splitLines]
  | cons d rest ih =>
    rw [splitLines]
    split
    · rintro (⟨line,hline,hc⟩ | hc)
      · rcases List.mem_cons.mp hline with rfl | hline
        · cases hc
        · exact List.mem_cons_of_mem d (ih (Or.inl ⟨line,hline,hc⟩))
      · exact List.mem_cons_of_mem d (ih (Or.inr hc))
    · split
      next hnone =>
        rintro (⟨line,hline,-⟩ | hc)
        · cases hline
        · rcases List.mem_cons.mp hc with rfl | hc
          · exact List.mem_cons_self
          · exact List.mem_cons_of_mem d (ih (Or.inr hc))
      next first lines hsome =>
        have hrest : ∀ line ∈ first :: lines, c ∈ line → c ∈ d :: rest := by
          intro line hline hc
          exact List.mem_cons_of_mem d (ih (Or.inl ⟨line,hsome ▸ hline,hc⟩))
        rintro (⟨line,hline,hc⟩ | hc)
        · rcases List.mem_cons.mp hline with rfl | hline
          · rcases List.mem_cons.mp hc with rfl | hc
            · exact List.mem_cons_self
            · exact hrest first List.mem_cons_self hc
          · exact hrest line (List.mem_cons_of_mem first hline) hc
        · exact List.mem_cons_of_mem d (ih (Or.inr hc))

theorem mem_dropReturn {line : Received} {c : Char × Bool} (h : c ∈ dropReturn line) : c ∈ line := by
  unfold dropReturn at h
  split at h
  · exact List.mem_of_mem_dropLast h
  · exact h

theorem dropReturn_beginsClear {line : Received} (h : line = [] ∨ BeginsClear line) : dropReturn line = [] ∨
    BeginsClear (dropReturn line) := by
  unfold dropReturn
  split
  · rcases h with rfl | ⟨c,rest,rfl,hc⟩
    · exact Or.inl rfl
    · cases rest with
      | nil => exact Or.inl rfl
      | cons d rest => exact Or.inr ⟨c,_,rfl,hc⟩
  · exact h

theorem splitLines_beginsClear {received : Received} (h : BeginsClear received) :
    (∃ line lines, (splitLines received).1 = line :: lines ∧ (line = [] ∨ BeginsClear line)) ∨
      (splitLines received).1 = [] ∧ BeginsClear (splitLines received).2 := by
  obtain ⟨c,rest,rfl,hc⟩ := h
  rw [splitLines]
  split
  · exact Or.inl ⟨[],_,rfl,Or.inl rfl⟩
  · split
    · exact Or.inr ⟨rfl,c,_,rfl,hc⟩
    next line lines _ => exact Or.inl ⟨_,_,rfl,Or.inr ⟨c,line,rfl,hc⟩⟩

theorem onData_cases (s : Session) (chunk : String) {P : Char × Bool → Prop} (hbuffer : ∀ c ∈ s.buffer, P c)
    (hqueue : ∀ line ∈ s.queue, ∀ c ∈ line, P c) (hP : ∀ c, P (c,decide (s.socket = .tls))) :
    (∀ c ∈ (s.onData chunk).buffer, P c) ∧ ∀ line ∈ (s.onData chunk).queue, ∀ c ∈ line, P c := by
  have hall : ∀ c ∈ s.buffer ++ chunk.toList.map fun c => (c,decide (s.socket = .tls)), P c := by
    intro c hc
    rcases List.mem_append.mp hc with hc | hc
    · exact hbuffer c hc
    · obtain ⟨d,-,rfl⟩ := List.mem_map.mp hc
      exact hP d
  refine ⟨fun c hc => hall c (mem_splitLines (Or.inr hc)),?_⟩
  intro line hline c hc
  rcases List.mem_append.mp hline with hline | hline
  · exact hqueue line hline c hc
  · obtain ⟨l,hl,rfl⟩ := List.mem_map.mp hline
    exact hall c (mem_splitLines (Or.inl ⟨l,hl,mem_dropReturn hc⟩))

theorem frontClear_onData (h : FrontClear s) (chunk : String) : FrontClear (s.onData chunk) := by
  unfold FrontClear at h ⊢
  change match s.lines,s.queue ++ _ with | line :: _,_ => _ | [],line :: _ => _ | [],[] => _
  cases hlines : s.lines with
  | cons line lines =>
    rw [hlines] at h
    exact h
  | nil =>
    rw [hlines] at h
    cases hq : s.queue with
    | cons line queue =>
      rw [hq] at h
      exact h
    | nil =>
      rw [hq] at h
      obtain ⟨c,rest,hbuffer,hc⟩ := h
      have hbegins : BeginsClear (s.buffer ++ chunk.toList.map fun c => (c,decide (s.socket = .tls))) := by
        rw [hbuffer]
        exact ⟨c,_,rfl,hc⟩
      rcases splitLines_beginsClear hbegins with ⟨line,lines,hsplit,hline⟩ | ⟨hsplit,hrest⟩
      · rw [hsplit]
        exact dropReturn_beginsClear hline
      · rw [hsplit]
        exact hrest

theorem Kept.onData (h : Kept s) (chunk : String) : Kept (s.onData chunk) := by
  rcases h with h | h | h
  · obtain ⟨hbuffer,hqueue⟩ := onData_cases (P := fun c => c.2 = false) s chunk h.buffer h.queue (fun c => by rw [h.socket]; rfl)
    exact Or.inl {h with buffer := hbuffer, queue := hqueue}
  · obtain ⟨hbuffer,hqueue⟩ := onData_cases (P := fun c => c.2 = true) s chunk h.buffer h.queue (fun c => by rw [h.socket]; rfl)
    exact Or.inr (Or.inl {h with buffer := hbuffer, queue := hqueue})
  · refine Or.inr (Or.inr {h with state := ?_})
    rcases h.state with hj | ⟨hu,ha | hf⟩
    · exact Or.inl hj
    · exact Or.inr ⟨hu,Or.inl ha⟩
    · exact Or.inr ⟨hu,Or.inr (frontClear_onData hf chunk)⟩

theorem IsClear.beginsClear {line : Received} (h : IsClear line) : line = [] ∨ BeginsClear line := by
  cases line with
  | nil => exact Or.inl rfl
  | cons c rest => exact Or.inr ⟨c,rest,rfl,h c List.mem_cons_self⟩

theorem Kept.secure (h : Kept s) (hu : Upgrading s) (hphase : s.phase = .handshake) : Kept (s.secure options) := by
  have hplain := hu.plain (Or.inr hphase)
  have hlines := hu.lines hphase
  rcases h with h | h | h
  · have hanswered : Unanswered (s.secure options) := h.unanswered
    by_cases hleft : s.queue ++ (if s.buffer = [] then [] else [s.buffer]) = []
    · obtain ⟨hq,hb⟩ := List.append_eq_nil_iff.mp hleft
      have hbuffer : s.buffer = [] := by
        by_contra hne
        rw [if_neg hne] at hb
        cases hb
      refine Or.inr (Or.inl ⟨rfl,?_,?_,?_,hleft,fun j hj ha => absurd ha (hanswered j hj)⟩)
      · change s.buffer.InTls
        rw [hbuffer]
        intro c hc
        cases hc
      · change ∀ line ∈ s.queue,line.InTls
        rw [hq]
        intro line hline
        cases hline
      · change ∀ line ∈ s.lines,line.InTls
        rw [hlines]
        intro line hline
        cases hline
    · refine Or.inr (Or.inr ⟨rfl,hleft,rfl,Or.inr ⟨hanswered,Or.inr ?_⟩⟩)
      unfold FrontClear
      change match s.lines,s.queue with | line :: _,_ => _ | [],line :: _ => _ | [],[] => BeginsClear s.buffer
      rw [hlines]
      cases hq : s.queue with
      | cons line queue => exact (h.queue line (hq ▸ List.mem_cons_self)).beginsClear
      | nil =>
        refine h.buffer.beginsClear.resolve_left ?_
        intro hb
        rw [hq,hb] at hleft
        exact hleft rfl
  · rw [h.socket] at hplain
    cases hplain
  · rw [h.socket] at hplain
    cases hplain

theorem kept_opening (options : SmtpOptions) : Kept (opening options) := by
  have hnone : ∀ {P : Received → Prop}, ∀ line ∈ ([] : List Received), P line := by
    intro P line hline
    cases hline
  by_cases hsocket : (opening options).socket = .tls
  · refine Or.inr (Or.inl ⟨hsocket,?_,hnone,hnone,rfl,?_⟩)
    · intro c hc
      cases hc
    · intro j hj
      cases hj
  · refine Or.inl ⟨?_,?_,hnone,rfl,by simp [opening],?_⟩
    · cases h : (opening options).socket with
      | plain => rfl
      | tls => exact absurd h hsocket
    · intro c hc
      cases hc
    · intro j hj
      cases hj

theorem Kept.step (h : Kept s) (hu : Upgrading s) {l : Label} (hs : s.step platform options message l = some t) :
    Kept t ∧ Upgrading t := by
  cases l with
  | data chunk =>
    change (if _ then _ else _) = _ at hs
    split at hs
    · obtain rfl := Option.some.inj hs
      exact ⟨h.onData chunk,⟨hu.plain,hu.lines⟩⟩
    · cases hs
  | error =>
    obtain rfl := Option.some.inj hs
    refine ⟨?_,⟨hu.plain,hu.lines⟩⟩
    rcases h with h | h | h
    · exact Or.inl {h with}
    · exact Or.inr (Or.inl {h with})
    · exact Or.inr (Or.inr {h with})
  | timeout =>
    change (if _ then _ else _) = _ at hs
    split at hs
    · obtain rfl := Option.some.inj hs
      exact ⟨h.stop _,upgrading_of rfl⟩
    · cases hs
  | secure =>
    simp only [Session.step] at hs
    split at hs
    next hphase =>
      obtain rfl := Option.some.inj hs
      exact ⟨h.secure hu hphase,upgrading_of rfl⟩
    next => cases hs
  | insecure =>
    simp only [Session.step] at hs
    split at hs
    · obtain rfl := Option.some.inj hs
      exact ⟨h.stop _,upgrading_of rfl⟩
    · cases hs
  | read =>
    change s.read platform options message = _ at hs
    refine ⟨h.read hs,?_⟩
    unfold Session.read at hs
    split at hs
    next hawaiting =>
      split at hs
      next line queue _ =>
        obtain rfl := Option.some.inj hs
        have hqueue : Upgrading {s with queue := queue} := ⟨hu.plain,hu.lines⟩
        exact hqueue.take hawaiting line
      next =>
        split at hs
        · obtain rfl := Option.some.inj hs
          exact upgrading_of rfl
        · cases hs
    next => cases hs

end Answers

/-- A session that may not be in the clear is confined to the encrypted peer just if nothing received in the clear was left
over when it was upgraded, or no reply has been judged since. -/
theorem confined_iff (hplain : plaintextAllowed platform options = false) (h : (sessions platform options message).Reachable s) :
    Confined s ↔ s.leftover = [] ∨ Unanswered s := by
  obtain ⟨hsealed,hkept,-⟩ := h.invariant (fun s => Sealed s ∧ Kept s ∧ Upgrading s)
    ⟨sealed_opening options,kept_opening options,upgrading_opening options⟩
    (fun a l b ha _ hb => ⟨ha.1.step hplain hb,ha.2.1.step ha.2.2 hb⟩)
  rw [← hkept.answeredInTls_iff]
  exact ⟨Confined.answered,fun ha => ⟨hsealed.written,ha⟩⟩

/-- The platform as far as plain ASCII text goes. -/
def asciiPlatform : Platform where
  toLowerCase s := String.ofList (s.toList.map Char.toLower)
  toUpperCase s := String.ofList (s.toList.map Char.toUpper)
  isIPv6 _ := false
  canonicalHostname _ := none
  base64 s := s

def relayOptions : SmtpOptions := {host := "mail.example.com",user := some "ada",password := some "secret"}

def welcome : EmailMessage := ⟨"noreply@example.com",["bob@example.com"],"Subject: Welcome"⟩

/-- The opening up to the reply to STARTTLS, which is left to be read. -/
def openingRun (reply : String) : List Label := [.data "220 mail\r\n",.read,.data "250-mail\r\n250 STARTTLS\r\n",.read,.read,
    .data reply,.read,.secure]

def afterRun (labels : List Label) : Session :=
  ((sessions asciiPlatform relayOptions welcome).run labels).getD (opening relayOptions)

def deliveredRun : List Label := openingRun "220 go\r\n" ++
  ([.data "250-mail\r\n250 AUTH PLAIN\r\n",.read,.read,.data "235 ok\r\n250 ok\r\n250 ok\r\n354 go",
    .data "\r\n250 queued\r\n221 bye\r\n",.read,.read,.read,.read,.read,.read] : List Label)

/-- The message is sent, and every reply since the upgrade came from inside TLS. -/
theorem confined_iff_delivered : (afterRun deliveredRun).judged.length = 10 ∧ Confined (afterRun deliveredRun) := by
  have hrun : (sessions asciiPlatform relayOptions welcome).run deliveredRun = some (afterRun deliveredRun) := rfl
  exact ⟨rfl,(confined_iff (by decide) (System.run_reachable hrun)).mpr (Or.inl rfl)⟩

def injectedRun : List Label := openingRun "220 go\r\n250 AUTH PLAIN\r\n" ++ [.read]

/-- A line that was injected with the reply to STARTTLS answers the next command. -/
theorem confined_iff_injected : plaintextAllowed asciiPlatform relayOptions = false ∧ tlsModeOf relayOptions = .starttls ∧
    (sessions asciiPlatform relayOptions welcome).run injectedRun = some (afterRun injectedRun) ∧
      ¬ Confined (afterRun injectedRun) := by
  refine ⟨by decide,rfl,rfl,?_⟩
  intro h
  have hlast : (⟨some .tls,["250 AUTH PLAIN".toList.map fun c => (c,false)]⟩ : Judged) ∈ (afterRun injectedRun).judged :=
    List.mem_of_getElem? (i := 3) rfl
  have hin := h.answered _ hlast rfl _ List.mem_cons_self ('2',false) List.mem_cons_self
  cases hin

end Session
end StructureAi.Mailer
