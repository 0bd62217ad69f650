import StructureAi.Mailer.Dsn

/-! # The credentials of a DSN

A DSN dies just where it comes to decode a broken escape, or to read the host of a base URL that is none. Credentials that
`encodeURIComponent` wrote are read back as they were, with the host and the port.
-/
namespace StructureAi.Mailer
open StructureAi.Foundation

section Decoding
variable (platform : UrlPlatform)

/-- What passes the first checks. -/
structure Accepted (url : Url) : Prop where
  scheme : url.protocol ∈ smtpSchemes ∨ url.protocol ∈ apiSchemes
  host : url.hostname ≠ ""
  user : url.password ≠ "" → url.username ≠ ""
  query : ∀ key ∈ (searchParams url.query).map Prod.fst, isSmuggled key = false

def SecureBase (baseUrl : String) : Prop :=
  "https://".toList <+: baseUrl.toList ∨
    "http://".toList <+: baseUrl.toList ∧ ∃ url, parseUrl platform baseUrl.toList = some url ∧ isLoopbackName url.hostname = true

/-- What is decoded can be: the base URL of a key, the key, or the user name and the password. -/
structure Decodes (url : Url) : Prop where
  base : url.protocol ∈ apiSchemes → url.username ≠ "" → ∀ baseUrl, url.get "base_url" = some baseUrl →
    "http://".toList <+: baseUrl.toList → (parseUrl platform baseUrl.toList).isSome
  key : url.protocol ∈ apiSchemes → (∀ baseUrl, url.get "base_url" = some baseUrl → SecureBase platform baseUrl) →
    WellEscaped url.username.toList
  login : url.protocol ∉ apiSchemes → (∀ port ∈ url.port, 0 < port ∧ port ≤ 65535) →
    WellEscaped url.username.toList ∧ WellEscaped url.password.toList

variable {platform} {url : Url}

theorem refusal_none : refusal url = none ↔ Accepted url := by
  have hfind : ((searchParams url.query).map Prod.fst).find? isSmuggled = none ↔
      ∀ key ∈ (searchParams url.query).map Prod.fst, isSmuggled key = false := by
    rw [List.find?_eq_none]
    exact forall₂_congr fun _ _ => Bool.not_eq_true _ ▸ Iff.rfl
  unfold refusal
  split
  · rename_i h
    exact iff_of_false nofun fun hurl => hurl.scheme.elim h.1 h.2
  · rename_i hscheme
    split
    · rename_i h
      exact iff_of_false nofun fun hurl => hurl.host h
    · rename_i hhost
      split
      · rename_i h
        exact iff_of_false nofun fun hurl => hurl.user h.1 h.2
      · rename_i huser
        rw [Option.map_eq_none_iff,hfind]
        refine ⟨fun hquery => ⟨?_,hhost,fun hpassword hname => huser ⟨hpassword,hname⟩,hquery⟩,fun hurl => hurl.query⟩
        by_contra hnot
        exact hscheme (not_or.mp hnot)

theorem isSome_runSync {α ε : Type} (attempt : Option α) (caught : ε) : (runSync (effectTry attempt caught)).isSome =
    attempt.isSome := by
  cases attempt <;> rfl

theorem runSync_effectTry {α ε : Type} (attempt : Option α) (caught : ε) : runSync (effectTry attempt caught) = attempt := by
  cases attempt <;> rfl

theorem isSome_decodeComponent (value : String) : (decodeComponent value).isSome ↔ WellEscaped value.toList := by
  rw [decodeComponent,isSome_runSync,Option.isSome_map,isSome_decodeURIComponent]

theorem isSome_decodePart (part : String) : (decodePart part).isSome ↔ WellEscaped part.toList := by
  unfold decodePart
  split
  · rename_i h
    rw [h]
    exact iff_of_true rfl .nil
  · rw [Option.isSome_map,isSome_decodeComponent]

theorem splitEncodedAt_some {text before after : List Char} (h : splitEncodedAt text = some (before,after)) :
    text = before ++ "%40".toList ++ after := by
  induction text generalizing before with
  | nil => cases h
  | cons c rest ih =>
    rw [splitEncodedAt] at h
    split at h
    · rename_i first second hrest
      cases h
      rw [ih hrest]
      rfl
    · split at h
      · rename_i hat
        cases h
        obtain ⟨after,hafter⟩ := List.isPrefixOf_iff_prefix.mp hat
        obtain ⟨rfl,rfl⟩ := List.cons.inj hafter
        rfl
      · cases h

theorem credentials_wellEscaped (url : Url) : WellEscaped (credentials url).1.toList ∧ WellEscaped (credentials url).2.toList ↔
    WellEscaped url.username.toList ∧ WellEscaped url.password.toList := by
  unfold credentials
  split
  · exact Iff.rfl
  · rename_i hpassword
    split
    · rename_i user password hsplit
      rw [not_not.mp hpassword,splitEncodedAt_some hsplit,wellEscaped_at,String.toList_ofList,String.toList_ofList]
      exact (and_iff_left .nil).symm
    · exact Iff.rfl

theorem isSome_parseSmtpDsn (url : Url) : (parseSmtpDsn url).isSome ↔
    ((∀ port ∈ url.port, 0 < port ∧ port ≤ 65535) → WellEscaped url.username.toList ∧ WellEscaped url.password.toList) := by
  have hport : (url.port.any fun port => port = 0 || 65535 < port) = true ↔ ¬ ∀ port ∈ url.port, 0 < port ∧ port ≤ 65535 := by
    cases url.port with
    | none => simp
    | some port =>
      simp only [Option.any_some,Option.mem_some_iff,forall_eq',Bool.or_eq_true,decide_eq_true_eq]
      omega
  unfold parseSmtpDsn
  split
  · rename_i h
    exact iff_of_true rfl fun hvalid => absurd hvalid (hport.mp h)
  · rename_i h
    have hvalid : ∀ port ∈ url.port, 0 < port ∧ port ≤ 65535 := by
      by_contra hnot
      exact h (hport.mpr hnot)
    rw [← credentials_wellEscaped,← isSome_decodePart,← isSome_decodePart]
    cases decodePart (credentials url).1 with
    | none => exact iff_of_false nofun fun hparts => nomatch (hparts hvalid).1
    | some user =>
      cases decodePart (credentials url).2 with
      | none => exact iff_of_false nofun fun hparts => nomatch (hparts hvalid).2
      | some password => exact iff_of_true rfl fun _ => ⟨rfl,rfl⟩

theorem not_http {text : List Char} (h : "https://".toList <+: text) : ¬ "http://".toList <+: text := by
  intro hhttp
  have hshort := List.prefix_of_prefix_length_le hhttp h (by decide)
  exact absurd hshort (by decide)

theorem isSome_isSecure (baseUrl : Option String) : (isSecure platform baseUrl).isSome ↔
    ∀ base, baseUrl = some base → "http://".toList <+: base.toList → (parseUrl platform base.toList).isSome := by
  unfold isSecure
  cases baseUrl with
  | none => exact iff_of_true rfl nofun
  | some base =>
    dsimp only
    split
    · rename_i hhttps
      refine iff_of_true rfl fun base' hbase hhttp => ?_
      obtain rfl := Option.some.inj hbase
      exact absurd hhttp (not_http (List.isPrefixOf_iff_prefix.mp hhttps))
    · split
      · rename_i hhttp
        rw [isLoopbackUrl,Option.isSome_map,isSome_runSync,Option.isSome_map]
        refine ⟨fun h base' hbase _ => ?_,fun h => h base rfl (List.isPrefixOf_iff_prefix.mp hhttp)⟩
        obtain rfl := Option.some.inj hbase
        exact h
      · rename_i hhttp
        refine iff_of_true rfl fun base' hbase hstart => ?_
        obtain rfl := Option.some.inj hbase
        exact absurd (List.isPrefixOf_iff_prefix.mpr hstart) hhttp

theorem isSecure_true {baseUrl : Option String} :
    isSecure platform baseUrl = some true ↔ ∀ base, baseUrl = some base → SecureBase platform base := by
  unfold isSecure
  cases baseUrl with
  | none => exact iff_of_true rfl nofun
  | some base =>
    have hone : (∀ base', some base = some base' → SecureBase platform base') ↔ SecureBase platform base :=
      ⟨fun h => h base rfl,fun h base' hbase => Option.some.inj hbase ▸ h⟩
    rw [hone,SecureBase,← List.isPrefixOf_iff_prefix,← List.isPrefixOf_iff_prefix]
    dsimp only
    split
    · rename_i hhttps
      exact iff_of_true rfl (Or.inl hhttps)
    · rename_i hhttps
      rw [or_iff_right hhttps]
      split
      · rename_i hhttp
        rw [isLoopbackUrl,runSync_effectTry,Option.map_map,Option.map_eq_some_iff]
        exact (and_iff_right hhttp).symm
      · rename_i hhttp
        exact iff_of_false nofun fun h => hhttp h.1

theorem isSome_parseApiDsn (url : Url) : (parseApiDsn platform url).isSome ↔
    (url.username ≠ "" → ∀ baseUrl, url.get "base_url" = some baseUrl → "http://".toList <+: baseUrl.toList →
      (parseUrl platform baseUrl.toList).isSome) ∧
    ((∀ baseUrl, url.get "base_url" = some baseUrl → SecureBase platform baseUrl) → WellEscaped url.username.toList) := by
  rw [← isSome_isSecure,← isSecure_true]
  unfold parseApiDsn
  split
  · rename_i hname
    rw [hname]
    exact iff_of_true rfl ⟨fun h => absurd rfl h,fun _ => .nil⟩
  · rename_i hname
    rw [← isSome_decodeComponent]
    dsimp only
    cases isSecure platform (url.get "base_url") with
    | none => exact iff_of_false nofun fun h => nomatch h.1 hname
    | some secure =>
      cases secure with
      | false => exact iff_of_true rfl ⟨fun _ => rfl,nofun⟩
      | true =>
        cases decodeComponent url.username with
        | none => exact iff_of_false nofun fun h => nomatch h.2 rfl
        | some key => exact iff_of_true rfl ⟨fun _ => rfl,fun _ => rfl⟩

theorem isSome_parseMailerDsn (dsn : JsString) : (parseMailerDsn platform dsn).isSome ↔
    ∀ url, parseUrl platform (scalarValues dsn) = some url → Accepted url → Decodes platform url := by
  unfold parseMailerDsn
  cases parseUrl platform (scalarValues dsn) with
  | none => exact iff_of_true rfl nofun
  | some url =>
    have hone : (∀ url', some url = some url' → Accepted url' → Decodes platform url') ↔ (Accepted url → Decodes platform url) :=
      ⟨fun h => h url rfl,fun h url' hurl => Option.some.inj hurl ▸ h⟩
    rw [hone,← refusal_none]
    dsimp only [effectTry]
    cases refusal url with
    | some reason => exact iff_of_true rfl nofun
    | none =>
      rw [eq_self_iff_true,true_imp_iff]
      dsimp only
      split
      · rename_i hapi
        rw [isSome_parseApiDsn]
        exact ⟨fun h => ⟨fun _ => h.1,fun _ => h.2,fun hnot => absurd hapi hnot⟩,fun h => ⟨h.base hapi,h.key hapi⟩⟩
      · rename_i hapi
        rw [isSome_parseSmtpDsn]
        exact ⟨fun h => ⟨fun hin => absurd hin hapi,fun hin => absurd hin hapi,fun _ => h⟩,fun h => h.login hapi⟩

end Decoding

section Login
variable {platform : UrlPlatform} {user password host : String} {hostname : List Char} {port : ℕ}

/-- `<encodeURIComponent user>:<encodeURIComponent password>@host:port`. -/
def loginAuthority (user password host : String) (port : ℕ) : List Char :=
  (encodeURIComponent user).toList ++ ':' :: (encodeURIComponent password).toList ++
    '@' :: (host.toList ++ ':' :: Nat.toDigits 10 port)

/-- `smtp://` and the authority. -/
def loginDsn (user password host : String) (port : ℕ) : JsString :=
  ofText ("smtp".toList ++ ':' :: '/' :: '/' :: loginAuthority user password host port)

/-- An address in brackets is written in hexadecimal digits, colons and dots. -/
def ReadsAddresses (platform : UrlPlatform) : Prop :=
  ∀ text address, platform.ipv6 text = some address → ∀ c ∈ text, (hexDigit c).isSome ∨ c = ':' ∨ c = '.'

theorem mem_encodeURIComponent {c : Char} {text : String} (h : c ∈ (encodeURIComponent text).toList) : isUnreserved c = true ∨
    c = '%' := by
  rw [encodeURIComponent_eq,String.toList_ofList] at h
  rcases mem_percentEncode h with h | rfl | ⟨n,hn,rfl⟩
  · exact Or.inl h
  · exact Or.inr rfl
  · exact Or.inl (isUnreserved_digitChar n hn)

/-- The marks that end an authority or its parts, and what is taken out of a text. -/
def isMark (c : Char) : Bool := c ∈ ['/','\\','?','#','@'] || isTabOrNewline c

theorem isUnreserved_kind {c : Char} (h : isUnreserved c = true) :
    keepsUserinfo c = true ∧ isMark c = false ∧ isControlOrSpace c = false := by
  have hall : ∀ n < 0x80, isUnreserved (Char.ofNat n) = true →
      keepsUserinfo (Char.ofNat n) = true ∧ isMark (Char.ofNat n) = false ∧ isControlOrSpace (Char.ofNat n) = false := by decide
  have hone := hall c.toNat (isUnreserved_small h)
  rw [Char.ofNat_toNat] at hone
  exact hone h

theorem isUnreserved_digit {c : Char} (h : c.isDigit = true) : isUnreserved c = true := by
  rw [isUnreserved,Char.isAlphanum,h,Bool.or_true,Bool.true_or]

theorem forbidden_of_mark {c : Char} (h : isMark c = true) : isForbiddenHost c = true := by
  simp only [isMark,isTabOrNewline,Bool.or_eq_true,decide_eq_true_eq,List.mem_cons,List.not_mem_nil,or_false] at h
  rcases h with (rfl | rfl | rfl | rfl | rfl) | (rfl | rfl) | rfl <;> rfl

theorem not_mark {c : Char} (h : (hexDigit c).isSome ∨ c = ':' ∨ c = '.') : isMark c = false ∧ c ≠ ']' := by
  refine ⟨?_,?_⟩
  · rw [Bool.eq_false_iff]
    intro hmark
    simp only [isMark,isTabOrNewline,Bool.or_eq_true,decide_eq_true_eq,List.mem_cons,List.not_mem_nil,or_false] at hmark
    rcases hmark with (rfl | rfl | rfl | rfl | rfl) | (rfl | rfl) | rfl <;> exact absurd h (by decide)
  · rintro rfl
    exact absurd h (by decide)

theorem host_kind (haddresses : ReadsAddresses platform) (h : parseHost platform false host.toList = some hostname)
    (digits : List Char) :
    (∀ c ∈ host.toList, isMark c = false) ∧ cutPort false (host.toList ++ ':' :: digits) = (host.toList,some digits) := by
  unfold parseHost at h
  split at h
  · rename_i rest htext
    split at h
    · rename_i hlast
      obtain ⟨address,haddress,-⟩ := Option.map_eq_some_iff.mp h
      have hinner := haddresses _ _ haddress
      have hform : host.toList = '[' :: (rest.dropLast ++ [']']) := by
        rw [htext,List.dropLast_append_getLast? _ hlast]
      rw [hform]
      refine ⟨fun c hc => ?_,cutPort_brackets fun hin => (not_mark (hinner _ hin)).2 rfl⟩
      rw [List.mem_cons,List.mem_append,List.mem_singleton] at hc
      rcases hc with rfl | hc | rfl
      · decide
      · exact (not_mark (hinner c hc)).1
      · decide
    · cases h
  · rename_i text _
    rw [if_neg (by decide)] at h
    split at h
    · cases h
    · rename_i hany
      have hall : ∀ c ∈ host.toList, isForbiddenHost c = false := by
        simpa using hany
      refine ⟨fun c hc => ?_,cutPort_plain fun c hc => ⟨?_,?_⟩⟩
      · rw [Bool.eq_false_iff]
        intro hmark
        have hforbidden := forbidden_of_mark hmark
        rw [hall c hc] at hforbidden
        cases hforbidden
      · rintro rfl
        exact absurd (hall _ hc) (by decide)
      · rintro rfl
        exact absurd (hall _ hc) (by decide)

theorem parsePort_toDigits (hport : port ≤ 65535) : parsePort "smtp" (Nat.toDigits 10 port) = some (some port) := by
  have hall : (Nat.toDigits 10 port).all Char.isDigit = true :=
    List.all_eq_true.mpr fun c hc => Nat.isDigit_of_mem_toDigits (by decide) (by decide) hc
  unfold parsePort
  rw [if_pos hall,if_neg Nat.toDigits_ne_nil,Nat.ofDigitChars_ten_toDigits]
  dsimp only
  rw [if_neg (by omega),if_neg]
  exact nofun

theorem mem_encoded {c : Char} {text : String} (h : c ∈ (encodeURIComponent text).toList) : keepsUserinfo c = true ∧
    isMark c = false := by
  rcases mem_encodeURIComponent h with h | rfl
  · exact ⟨(isUnreserved_kind h).1,(isUnreserved_kind h).2.1⟩
  · decide

theorem mem_digits {c : Char} (h : c ∈ Nat.toDigits 10 port) : isMark c = false ∧ isControlOrSpace c = false :=
  (isUnreserved_kind (isUnreserved_digit (Nat.isDigit_of_mem_toDigits (by decide) (by decide) h))).2

theorem mem_loginAuthority (hmarks : ∀ c ∈ host.toList, isMark c = false) {c : Char}
    (h : c ∈ loginAuthority user password host port) :
    c = '@' ∨ isMark c = false := by
  simp only [loginAuthority,List.mem_append,List.mem_cons] at h
  rcases h with (h | rfl | h) | rfl | h | rfl | h
  · exact Or.inr (mem_encoded h).2
  · exact Or.inr (by decide)
  · exact Or.inr (mem_encoded h).2
  · exact Or.inl rfl
  · exact Or.inr (hmarks c h)
  · exact Or.inr (by decide)
  · exact Or.inr (mem_digits h).1

theorem parseAuthority_login (haddresses : ReadsAddresses platform) (hhost : host ≠ "")
    (hname : parseHost platform false host.toList = some hostname) (hport : port ≤ 65535) :
    parseAuthority platform "smtp" (loginAuthority user password host port) =
      some ((encodeURIComponent user,encodeURIComponent password),hostname,some port) := by
  obtain ⟨hmarks,hcut⟩ := host_kind haddresses hname (Nat.toDigits 10 port)
  have hat : '@' ∉ host.toList ++ ':' :: Nat.toDigits 10 port := by
    intro hin
    rcases List.mem_append.mp hin with hin | hin
    · exact absurd (hmarks _ hin) (by decide)
    · rcases List.mem_cons.mp hin with h | hin
      · cases h
      · exact absurd (mem_digits hin).1 (by decide)
  have hne : host.toList ≠ [] := fun hnil => hhost (String.toList_eq_nil_iff.mp hnil)
  have hspecial : isSpecial "smtp" = false := by decide
  unfold loginAuthority
  rw [parseAuthority_credentials "smtp" (fun c hc => (mem_encoded hc).1) (fun c hc => (mem_encoded hc).1) hne hat hcut,
    hspecial,hname,
    parsePort_toDigits hport,String.ofList_toList,String.ofList_toList]
  rfl

theorem parseUrl_login (haddresses : ReadsAddresses platform) (hhost : host ≠ "")
    (hname : parseHost platform false host.toList = some hostname)
    (hport : port ≤ 65535) : parseUrl platform (scalarValues (loginDsn user password host port)) =
      some ⟨"smtp:",encodeURIComponent user,encodeURIComponent password,String.ofList hostname,some port,"",[]⟩ := by
  have hmarks := (host_kind haddresses hname []).1
  have hnone : ∀ c ∈ loginAuthority user password host port, c ∉ ['/','\\','?','#'] ∧ isTabOrNewline c = false := by
    intro c hc
    rcases mem_loginAuthority hmarks hc with rfl | hmark
    · decide
    · rw [isMark,Bool.or_eq_false_iff,decide_eq_false_iff_not] at hmark
      exact ⟨fun hin => hmark.1 (List.mem_append_left ['@'] hin),hmark.2⟩
  obtain ⟨most,last,hdigits⟩ : ∃ most last, Nat.toDigits 10 port = most ++ [last] :=
    ⟨_,_,(List.dropLast_append_getLast Nat.toDigits_ne_nil).symm⟩
  have hin : last ∈ Nat.toDigits 10 port := hdigits ▸ List.mem_append_right most (List.mem_singleton_self last)
  have hlast : isControlOrSpace last = false := (mem_digits hin).2
  have hends : loginAuthority user password host port ++ [] ++ searchText none =
      ((encodeURIComponent user).toList ++ ':' :: (encodeURIComponent password).toList ++
        '@' :: (host.toList ++ ':' :: most)) ++ [last] := by
    rw [loginAuthority,hdigits,List.append_nil,searchText,Option.elim_none,List.append_nil]
    simp only [List.append_assoc,List.cons_append]
  have hscheme : IsScheme "smtp".toList := ⟨⟨'s',"mtp".toList,rfl,rfl⟩,List.all_eq_true.mp (by decide),by decide⟩
  have hparse : parseUrl platform ("smtp".toList ++ ':' :: '/' :: '/' :: (loginAuthority user password host port ++ [] ++
    searchText none)) =
      some ⟨"smtp:",encodeURIComponent user,encodeURIComponent password,String.ofList hostname,some port,"",[]⟩ := by
    have hempty : ∀ c ∈ ([] : List Char).head?, c = '/' := by
      intro c hc
      cases hc
    have hclean : ∀ c ∈ loginAuthority user password host port ++ [] ++ (none : Option (List Char)).getD [], isTabOrNewline c =
      false := by
      intro c hc
      rw [Option.getD_none,List.append_nil,List.append_nil] at hc
      exact (hnone c hc).2
    have hne : loginAuthority user password host port ≠ [] := List.append_ne_nil_of_right_ne_nil _ (List.cons_ne_nil _ _)
    rw [parseUrl_composed hscheme (by decide) hne (fun c hc => (hnone c hc).1) hempty (List.forall_mem_nil _)
      (List.forall_mem_nil _) hclean
      hends hlast,String.ofList_toList,parseAuthority_login haddresses hhost hname hport]
    rfl
  rwa [List.append_nil,searchText,Option.elim_none,List.append_nil,← scalarValues_ofText ("smtp".toList ++ _)] at hparse

theorem decodePart_encoded {text : String} (h : text ≠ "") : encodeURIComponent text ≠ "" ∧
    decodePart (encodeURIComponent text) = some (some text) := by
  have hdecode := decodeURIComponent_encodeURIComponent text
  have hne : encodeURIComponent text ≠ "" := by
    intro hempty
    rw [hempty] at hdecode
    exact h (String.toList_eq_nil_iff.mp (Option.some.inj hdecode).symm)
  refine ⟨hne,?_⟩
  rw [decodePart,if_neg hne,decodeComponent,runSync_effectTry,hdecode,Option.map_some,Option.map_some,String.ofList_toList]

theorem hostname_ne {text : List Char} (htext : text ≠ []) (h : parseHost platform false text = some hostname) :
    hostname ≠ [] := by
  unfold parseHost at h
  split at h
  · split at h
    · obtain ⟨address,-,rfl⟩ := Option.map_eq_some_iff.mp h
      exact List.cons_ne_nil _ _
    · cases h
  · rw [if_neg (by decide)] at h
    split at h
    · cases h
    · obtain ⟨c,rest,rfl⟩ := List.exists_cons_of_ne_nil htext
      obtain rfl := Option.some.inj h
      rw [percentEncode,List.flatMap_cons]
      refine List.append_ne_nil_of_left_ne_nil ?_ _
      unfold escapeChar
      split
      · exact List.cons_ne_nil _ _
      · obtain ⟨b,tail,hbytes⟩ := List.exists_cons_of_ne_nil (String.utf8EncodeChar_ne_nil (c := c))
        rw [hbytes]
        exact List.cons_ne_nil _ _

/-- Encoded credentials are read back, with the port and with the host as the URL has it. -/
theorem parseMailerDsn_login (haddresses : ReadsAddresses platform) (huser : user ≠ "") (hpassword : password ≠ "")
    (hhost : host ≠ "")
    (hname : parseHost platform false host.toList = some hostname) (hport : 0 < port ∧ port ≤ 65535) :
    parseMailerDsn platform (loginDsn user password host port) =
      some (.ok (.smtp ⟨String.ofList hostname,some port,some user,some password,.starttls,none,true,false⟩)) := by
  have hne : host.toList ≠ [] := fun hnil => hhost (String.toList_eq_nil_iff.mp hnil)
  obtain ⟨huserNe,huserPart⟩ := decodePart_encoded huser
  obtain ⟨hpasswordNe,hpasswordPart⟩ := decodePart_encoded hpassword
  have haccepted : Accepted ⟨"smtp:",encodeURIComponent user,encodeURIComponent password,String.ofList hostname,some port,"",
    []⟩ := by
    have hscheme : "smtp:" ∈ smtpSchemes := by decide
    have hquery : searchParams [] = [] := rfl
    refine ⟨Or.inl hscheme,fun hempty => hostname_ne hne hname ?_,fun _ => huserNe,fun key hkey => ?_⟩
    · exact String.ofList_injective hempty
    · rw [hquery] at hkey
      cases hkey
  have hvalid : ((some port).any fun port => port = 0 || 65535 < port) = false := by
    simp only [Option.any_some,Bool.or_eq_false_iff,decide_eq_false_iff_not]
    omega
  unfold parseMailerDsn
  rw [parseUrl_login haddresses hhost hname hport.2]
  dsimp only [effectTry]
  rw [refusal_none.mpr haccepted]
  dsimp only
  rw [if_neg (by decide)]
  unfold parseSmtpDsn credentials
  dsimp only
  rw [hvalid,if_pos hpasswordNe]
  dsimp only
  rw [huserPart,hpasswordPart]
  rfl

end Login

section Settled

/-- An SMTP driver with this user, password, host and port was selected. -/
def Selects (parsed : Parsed) (user password host : String) (port : ℕ) : Prop :=
  ∃ dsn : SmtpDsn, parsed = some (.ok (.smtp dsn)) ∧ dsn.user = some user ∧ dsn.password = some password ∧ dsn.host = host ∧
    dsn.port = some port

/-- A DSN succeeds or fails just where what it comes to decode can be; credentials that were encoded,
  the port and the host are read as
they were just where the host is one that URLs write so. -/
theorem dsn_settled (platform : UrlPlatform) (haddresses : ReadsAddresses platform) :
    (∀ dsn, (∃ result, parseMailerDsn platform dsn = some result) ↔
      ∀ url, parseUrl platform (scalarValues dsn) = some url → Accepted url → Decodes platform url) ∧
    ∀ user password host port, user ≠ "" → password ≠ "" → host ≠ "" → (parseHost platform false host.toList).isSome →
      0 < port → port ≤ 65535 →
        (Selects (parseMailerDsn platform (loginDsn user password host port)) user password host port ↔
          parseHost platform false host.toList = some host.toList) := by
  constructor
  · intro dsn
    rw [← Option.isSome_iff_exists,isSome_parseMailerDsn]
  · intro user password host port huser hpassword hhost hname hpos hport
    obtain ⟨hostname,hname⟩ := Option.isSome_iff_exists.mp hname
    rw [parseMailerDsn_login haddresses huser hpassword hhost hname ⟨hpos,hport⟩,hname]
    constructor
    · rintro ⟨dsn,hdsn,-,-,hsame,-⟩
      cases hdsn
      rw [← hsame,String.toList_ofList]
    · intro hsame
      obtain rfl := Option.some.inj hsame
      exact ⟨_,rfl,rfl,rfl,String.ofList_toList,rfl⟩

/-- A platform that knows the loopback address and reads a domain as it is. -/
def plainPlatform : UrlPlatform where
  ipv6 text := if text = "::1".toList then some text else none
  domain text := some text
  file _ := none

theorem dsn_settled_plain :
    Selects (parseMailerDsn plainPlatform (loginDsn "team@example.com" "p:ss w%rd" "[::1]"
      587)) "team@example.com" "p:ss w%rd" "[::1]" 587 := by
  have haddresses : ReadsAddresses plainPlatform := by
    intro text address h
    have htext : text = "::1".toList := by
      by_contra hne
      rw [plainPlatform] at h
      dsimp only at h
      rw [if_neg hne] at h
      cases h
    rw [htext]
    simp [hexDigit]
  exact ((dsn_settled plainPlatform haddresses).2 _ _ _ _ (by decide) (by decide) (by decide) (by decide) (by decide)
    (by decide)).mpr
    (by decide)

/-- A malformed escape in the credentials. -/
theorem malformedEscape_dies : parseMailerDsn plainPlatform (ofText "smtp://%zz@relay.example.com".toList) = none := by
  decide +kernel

end Settled

end StructureAi.Mailer
