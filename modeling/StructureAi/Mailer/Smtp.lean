import StructureAi.Foundation.Run
import StructureAi.Foundation.Text

/-! # An SMTP session

The bytes of the server arrive in chunks, are cut into lines and queued; the client takes the lines
one by one, judges each reply by the command it waits for and writes the next command. Every
character is kept with whether it was received inside TLS. A session starts in the clear or inside
TLS, as the socket it is given, and may be upgraded once.
-/
namespace StructureAi.Mailer
open StructureAi.Foundation

section Options

inductive SmtpTlsMode where
  | starttls
  | implicit
  | none
deriving DecidableEq

inductive Socket where
  | plain
  | tls
deriving DecidableEq

structure SmtpOptions where
  host : String
  user : Option String := none
  password : Option String := none
  hostname : Option String := none
  startTls : Option Bool := none
  mode : Option SmtpTlsMode := none
  allowPlaintext : Option Bool := none
  /-- What `connect` gives. -/
  raw : Socket := .plain

/-- What the session takes from the platform. -/
structure Platform where
  toLowerCase : String → String
  toUpperCase : String → String
  isIPv6 : String → Bool
  /-- The hostname of `http://[…]`, if it can be parsed. -/
  canonicalHostname : String → Option String
  base64 : String → String

variable (platform : Platform) (options : SmtpOptions)

def dropOpening : List Char → List Char
  | '[' :: cs => cs
  | cs => cs

def dropClosing (cs : List Char) : List Char := if cs.getLast? = some ']' then cs.dropLast else cs

def isDigit (c : Char) : Bool := '0' ≤ c && c ≤ '9'

def isOctet (cs : List Char) : Bool := decide (1 ≤ cs.length ∧ cs.length ≤ 3) && cs.all isDigit

def isLoopbackHost (host : String) : Bool :=
  let bare := dropClosing (dropOpening (platform.toLowerCase (String.ofList (trim host.toList))).toList)
  let dotted := match bare.splitOn '.' with
    | [a,b,c,d] => a = "127".toList && isOctet b && isOctet c && isOctet d
    | _ => false
  if bare = "localhost".toList || bare = "localhost.".toList || dotted then true
  else if platform.isIPv6 (String.ofList bare) then
    match platform.canonicalHostname (String.ofList bare) with
    | some canonical => canonical = "[::1]" || "[::ffff:7f".toList.isPrefixOf canonical.toList
    | none => false
  else false

def tlsModeOf : SmtpTlsMode := options.mode.getD (if options.startTls = some false then .none else .starttls)

def plaintextAllowed : Bool := options.allowPlaintext = some true || isLoopbackHost platform options.host

end Options

section Replies

/-- Characters, each with whether it was received inside TLS. -/
abbrev Received := List (Char × Bool)

def Received.text (line : Received) : List Char := line.map Prod.fst

/-- The lines that are complete, and what comes after them. -/
def splitLines : Received → List Received × Received
  | [] => ([],[])
  | c :: cs =>
    if c.1 = '\n' then ([] :: (splitLines cs).1,(splitLines cs).2)
    else match (splitLines cs).1 with
      | [] => ([],c :: (splitLines cs).2)
      | line :: lines => ((c :: line) :: lines,(splitLines cs).2)

/-- `line.replace(/\r$/u, "")`. -/
def dropReturn (line : Received) : Received :=
  if line.getLast?.map Prod.fst = some '\r' then line.dropLast else line

def isLineTerminator (c : Char) : Bool := c = '\n' || c = '\r' || c = '\u2028' || c = '\u2029'

/-- A line of a reply: its code and whether it is the last. -/
def matchLine : List Char → Option (ℕ × Bool)
  | a :: b :: c :: separator :: rest =>
    if isDigit a && isDigit b && isDigit c && (separator = ' ' || separator = '-') && !rest.any isLineTerminator then
      some ((a.toNat - 48) * 100 + (b.toNat - 48) * 10 + (c.toNat - 48),separator = ' ')
    else none
  | _ => none

inductive Outcome where
  | sent
  | refused (reason : String)
  | retryable (code : ℕ)
  | transport (message : String)

def assertExpected (code : ℕ) (expected : List ℕ) : Option Outcome :=
  if code ∈ expected then none
  else if 500 ≤ code then some (.refused ("smtp-" ++ toString code))
  else if 400 ≤ code then some (.retryable code)
  else some (.transport ("unexpected smtp reply " ++ toString code))

end Replies

section Sessions

inductive Command where
  | ehlo (hostname : String)
  | starttls
  | authPlain (token : String)
  | authLogin
  | credential (text : String)
  | mail (sender : String)
  | rcpt (recipient : String)
  | data
  | message (payload : String)
  | quit

def Command.written : Command → String
  | ehlo hostname => "EHLO " ++ hostname ++ "\r\n"
  | starttls => "STARTTLS\r\n"
  | authPlain token => "AUTH PLAIN " ++ token ++ "\r\n"
  | authLogin => "AUTH LOGIN\r\n"
  | credential text => text ++ "\r\n"
  | mail sender => "MAIL FROM:<" ++ sender ++ ">\r\n"
  | rcpt recipient => "RCPT TO:<" ++ recipient ++ ">\r\n"
  | data => "DATA\r\n"
  | message payload => payload ++ "\r\n.\r\n"
  | quit => "QUIT\r\n"

/-- What the client waits for. -/
inductive Phase where
  | greeting
  | ehlo
  | starttls
  | handshake
  | secureEhlo
  | authPlain
  | authLogin
  | authUser
  | authPassword
  | mail
  | recipient (rest : List String)
  | data
  | message
  | quit
  | ended (outcome : Outcome)

def Phase.expected : Phase → List ℕ
  | greeting | starttls => [220]
  | ehlo | secureEhlo | mail | message => [250]
  | authPlain | authPassword => [235]
  | authLogin | authUser => [334]
  | recipient _ => [250,251]
  | data => [354]
  | quit => [221]
  | handshake | ended _ => []

/-- The message, with its payload rendered and its dots stuffed. -/
structure EmailMessage where
  sender : String
  recipients : List String
  payload : String

/-- A reply that was judged, by the socket on which its command was written, if there was one. -/
structure Judged where
  asked : Option Socket
  reply : List Received

structure Session where
  socket : Socket
  /-- Whether data of the socket is taken. -/
  listening : Bool
  buffer : Received
  queue : List Received
  /-- Whether the queue is failed. -/
  failed : Bool
  opened : Bool
  /-- Whether the opening was rejected. -/
  rejected : Bool
  phase : Phase
  /-- The lines of the reply so far. -/
  lines : List Received
  extensions : List String
  authMechanisms : List String
  asked : Option Socket
  written : List (Socket × Command)
  judged : List Judged
  /-- What had been received and not been judged when the session was upgraded. -/
  leftover : List Received

/-- A server sends, and a connection may break or go silent, at any time. -/
inductive Label where
  | data (chunk : String)
  | error
  | timeout
  | secure
  | insecure
  | read

namespace Session
variable (platform : Platform) (options : SmtpOptions) (message : EmailMessage) (s : Session)

/-- The end of the session; the reply to QUIT does not matter. -/
def stop (outcome : Outcome) : Session :=
  let outcome := match s.phase with
    | .quit => .sent
    | _ => outcome
  {s with phase := .ended outcome,listening := false}

def send (command : Command) (phase : Phase) : Session :=
  {s with
    written := s.written ++ [(s.socket,command)]
    asked := some s.socket
    phase := phase}

def content (line : Received) : List Char := line.text.drop 4

def keyword (line : Received) : String := platform.toUpperCase (String.ofList ((content line).takeWhile fun c => c ≠ ' '))

/-- What the server offers in its reply to EHLO. -/
def offer (reply : List Received) : Session :=
  let offered := reply.drop 1
  let auth := offered.filter fun line => keyword platform line = "AUTH"
  {s with
    extensions := (offered.map (keyword platform)).filter fun word => word ≠ ""
    authMechanisms := auth.flatMap fun line =>
      (wordsOf isWhiteSpace ((content line).drop 5)).map fun word => platform.toUpperCase (String.ofList word)}

def sendMail : Session := s.send (.mail message.sender) .mail

def sendRecipients : List String → Session
  | [] => s.send .data .data
  | recipient :: rest => s.send (.rcpt recipient) (.recipient rest)

/-- The start of `deliver` in an open session. -/
def deliver : Session :=
  match options.user with
  | none => s.sendMail message
  | some user =>
    if s.authMechanisms = [] then s.stop (.refused "smtp-auth-unsupported")
    else if "PLAIN" ∈ s.authMechanisms then
      s.send (.authPlain (platform.base64 ("\x00" ++ user ++ "\x00" ++ options.password.getD ""))) .authPlain
    else if "LOGIN" ∈ s.authMechanisms then s.send .authLogin .authLogin
    else s.stop (.refused "smtp-auth-mechanism-unsupported")

/-- The end of the opening: the session goes on if it is encrypted or need not be. -/
def finishOpening : Session :=
  if s.socket ≠ .tls ∧ plaintextAllowed platform options = false then s.stop (.refused "smtp-tls-required")
  else if s.rejected then s.stop (.transport "smtp connection")
  else deliver platform options message {s with opened := true}

def sendEhlo (phase : Phase) : Session := s.send (.ehlo (options.hostname.getD "structure-mailer")) phase

def accept (reply : List Received) : Session :=
  match s.phase with
  | .greeting => s.sendEhlo options .ehlo
  | .ehlo =>
    let s := s.offer platform reply
    if tlsModeOf options = .starttls ∧ "STARTTLS" ∈ s.extensions ∧ s.socket ≠ .tls then s.send .starttls .starttls
    else s.finishOpening platform options message
  | .starttls => {s with phase := .handshake,listening := false}
  | .secureEhlo => (s.offer platform reply).finishOpening platform options message
  | .authLogin => s.send (.credential (platform.base64 (options.user.getD ""))) .authUser
  | .authUser => s.send (.credential (platform.base64 (options.password.getD ""))) .authPassword
  | .authPlain | .authPassword => s.sendMail message
  | .mail => s.sendRecipients message.recipients
  | .recipient rest => s.sendRecipients rest
  | .data => s.send (.message message.payload) .message
  | .message => s.send .quit .quit
  | .quit => s.stop .sent
  | .handshake | .ended _ => s

def judge (code : ℕ) (reply : List Received) : Session :=
  if code < 200 ∨ 599 < code then s.stop (.transport "nonsense smtp reply code")
  else
    let judged := {s with judged := s.judged ++ [⟨s.asked,reply⟩]}
    match assertExpected code s.phase.expected with
    | some outcome => judged.stop outcome
    | none => accept platform options message judged reply

def take (line : Received) : Session :=
  match matchLine line.text with
  | none => s.stop (.transport "malformed smtp reply")
  | some (_,false) => {s with lines := s.lines ++ [line]}
  | some (code,true) => judge platform options message {s with lines := []} code (s.lines ++ [line])

def awaiting : Bool :=
  match s.phase with
  | .handshake | .ended _ => false
  | _ => true

def read : Option Session :=
  if s.awaiting then
    match s.queue with
    | line :: queue => some (take platform options message {s with queue := queue} line)
    | [] => if s.failed then some (s.stop (.transport "smtp connection")) else none
  else none

/-- `onData`. -/
def onData (chunk : String) : Session :=
  let received := splitLines (s.buffer ++ chunk.toList.map fun c => (c,decide (s.socket = .tls)))
  {s with
    queue := s.queue ++ received.1.map dropReturn
    buffer := received.2}

/-- The TLS socket takes the place of the plain one. -/
def secure : Session :=
  sendEhlo options {s with
    socket := .tls
    listening := true
    leftover := s.queue ++ if s.buffer = [] then [] else [s.buffer]} .secureEhlo

def step (s : Session) : Label → Option Session
  | .data chunk => if s.listening then some (s.onData chunk) else none
  | .error => some {s with failed := true,rejected := s.rejected || !s.opened}
  | .timeout => if s.awaiting then some (s.stop (.transport "smtp command timeout")) else none
  | .secure =>
    match s.phase with
    | .handshake => some (s.secure options)
    | _ => none
  | .insecure =>
    match s.phase with
    | .handshake => some (s.stop (.transport "smtp tls"))
    | _ => none
  | .read => s.read platform options message

/-- A session before the greeting of the server. -/
def opening : Session where
  socket := if tlsModeOf options = .implicit then .tls else options.raw
  listening := true
  buffer := []
  queue := []
  failed := false
  opened := false
  rejected := false
  phase := .greeting
  lines := []
  extensions := []
  authMechanisms := []
  asked := none
  written := []
  judged := []
  leftover := []

def sessions : System Session Label := ⟨opening options,step platform options message⟩

end Session
end Sessions
end StructureAi.Mailer
