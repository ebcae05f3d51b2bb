import BATorrent.Webui.WebServer

namespace BATorrent.WebServer

open Lib Lib.ByteText PasswordHash
open Lib.DataStream (Bytes)

section HeaderLines

-- A line of a block, up to its carriage return.
def HeaderLine (block name value : Bytes) : Prop :=
  ∃ pre raw post, block = pre ++ name ++ ascii ":" ++ raw ++ post ∧
    (pre = [] ∨ crlf <:+ pre) ∧ 13 ∉ raw ∧ value = trimmed raw

theorem indexOf_eq_none {c : UInt8} {bs : Bytes} (h : indexOf [c] bs = none) : c ∉ bs := by
  induction bs with
  | nil => simp
  | cons b bs ih =>
      rw [indexOf] at h
      split_ifs at h with hhere
      have hne : c ≠ b := by simpa [List.isPrefixOf] using hhere
      have hrest := ih (Option.map_eq_none_iff.mp h)
      simp [hne, hrest]

theorem exists_line {block : Bytes} {start : Nat} (h : lineFrom block start ≠ []) :
    ∃ raw post, block.drop start = raw ++ post ∧ 13 ∉ raw ∧ lineFrom block start = trimmed raw := by
  cases hstop : (indexFrom [13] block start).or (indexFrom [10] block start) with
  | none => simp [lineFrom, hstop] at h
  | some stop =>
      refine ⟨(block.drop start).take (stop - start), (block.drop start).drop (stop - start),
        (List.take_append_drop _ _).symm, ?_, by simp [lineFrom, hstop]⟩
      cases hcr : indexFrom [13] block start with
      | some i =>
          rw [hcr, Option.some_or] at hstop
          obtain rfl := Option.some.inj hstop
          obtain ⟨j, hj, rfl⟩ := Option.map_eq_some_iff.mp hcr
          rw [Nat.add_sub_cancel]
          exact notMem_take_of_indexOf hj
      | none =>
          intro hmem
          exact indexOf_eq_none (Option.map_eq_none_iff.mp hcr) (List.mem_of_mem_take hmem)

theorem exists_name {block name : Bytes} {start : Nat} (hfirst : ¬ crlf <+: block)
    (h : headerStart block name = some start) : ∃ pre, (pre = [] ∨ crlf <:+ pre) ∧
      block = pre ++ name ++ ascii ":" ++ block.drop start := by
  have hcolon : (ascii ":").length = 1 := rfl
  unfold headerStart at h
  cases hindex : indexOf (crlf ++ name ++ ascii ":") block with
  | some idx =>
      have heq := eq_of_indexOf hindex
      cases idx with
      | zero =>
          rw [List.take_zero, List.nil_append, List.append_assoc, List.append_assoc] at heq
          exact absurd ⟨_, heq.symm⟩ hfirst
      | succ idx =>
          simp only [hindex] at h
          obtain rfl := Option.some.inj h
          refine ⟨block.take (idx + 1) ++ crlf, .inr (List.suffix_append _ _), ?_⟩
          simpa only [List.append_assoc] using heq
  | none =>
      simp only [hindex] at h
      split_ifs at h with hpre
      obtain rfl := Option.some.inj h
      obtain ⟨rest, hrest⟩ := List.isPrefixOf_iff_prefix.mp hpre
      refine ⟨[], .inl rfl, ?_⟩
      rw [List.nil_append, ← hrest, List.drop_left' (by rw [List.length_append, hcolon])]

-- A block that does not start with an empty line has what it is asked for in a line of that name.
theorem headerLine_of_headerValue {block name : Bytes} (hfirst : ¬ crlf <+: block)
    (h : headerValue block name ≠ []) : HeaderLine block name (headerValue block name) := by
  unfold headerValue at h ⊢
  cases hstart : headerStart block name with
  | none => simp [hstart] at h
  | some start =>
      simp only [hstart] at h ⊢
      obtain ⟨pre, hpre, hblock⟩ := exists_name hfirst hstart
      obtain ⟨raw, post, hraw, hcr, hvalue⟩ := exists_line h
      refine ⟨pre, raw, post, ?_, hpre, hcr, hvalue⟩
      rw [hraw] at hblock
      rw [hblock]
      simp only [List.append_assoc]

end HeaderLines

section Blocks

theorem headersOf_append_bodyOf (requestData : Bytes) :
    headersOf requestData ++ bodyOf requestData = requestData := by
  unfold headersOf bodyOf
  cases indexOf (crlf ++ crlf) requestData with
  | none => exact List.append_nil _
  | some headerEnd => exact List.take_append_drop _ _

-- A request with a request line does not start with an empty one.
theorem not_crlf_first {requestData : Bytes} {line : RequestLine}
    (h : requestLineOf requestData = some line) : ¬ crlf <+: headersOf requestData := by
  rintro ⟨rest, hrest⟩
  have hdata : requestData = 13 :: 10 :: (rest ++ bodyOf requestData) := by
    have hall := headersOf_append_bodyOf requestData
    have hcrlf : crlf = [13, 10] := rfl
    rw [← hrest, hcrlf] at hall
    exact hall.symm
  have hnewline : indexOf [10] requestData = some 1 := by
    rw [hdata]
    simp [indexOf, List.isPrefixOf]
  unfold requestLineOf at h
  rw [hnewline, Option.bind_some, hdata] at h
  have hempty : trimmed (List.take 1 (13 :: 10 :: (rest ++ bodyOf requestData))) = [] := by
    simp [trimmed, isSpace, List.rdropWhile]
  rw [hempty] at h
  cases h

end Blocks

section Credentials

variable (qt : Qt) (s : State)

-- The credentials are the current ones.
def State.Current (user pass : QString) : Prop :=
  qt.toUtf8 user = qt.toUtf8 s.user ∧ verify qt pass s.passwordHash = true

-- A cookie of the block has the token.
def Carries (block token : Bytes) : Prop :=
  ∃ value part, HeaderLine block (ascii "Cookie") value ∧ part ∈ value.splitOn 59 ∧
    trimmed part = ascii "BATSID=" ++ token

-- The block has the user and the password in Basic credentials.
def HasBasic (block : Bytes) (user pass : QString) : Prop :=
  ∃ encoded u p, HeaderLine block (ascii "Authorization") (ascii "Basic " ++ encoded) ∧
    fromBase64 (trimmed encoded) = u ++ ascii ":" ++ p ∧ 58 ∉ u ∧
    user = qt.fromUtf8 u ∧ pass = qt.fromUtf8 p

theorem carries_of_cookieToken {block token : Bytes} (hfirst : ¬ crlf <+: block)
    (h : cookieToken block = some token) : Carries block token := by
  unfold cookieToken at h
  dsimp only at h
  split_ifs at h with hempty
  obtain ⟨part, hfind, rfl⟩ := Option.map_eq_some_iff.mp h
  obtain ⟨raw, hraw, rfl⟩ := List.mem_map.mp (List.mem_of_find?_eq_some hfind)
  obtain ⟨token, htoken⟩ := List.isPrefixOf_iff_prefix.mp (List.find?_some hfind)
  refine ⟨_, raw, headerLine_of_headerValue hfirst hempty, hraw, ?_⟩
  have hlen : (ascii "BATSID=").length = 7 := rfl
  rw [← htoken, List.drop_left' hlen]

theorem hasBasic_of_basicCredentials {block : Bytes} {user pass : QString}
    (hfirst : ¬ crlf <+: block) (h : basicCredentials qt block = some (user, pass)) :
    HasBasic qt block user pass := by
  unfold basicCredentials at h
  dsimp only at h
  split_ifs at h with hbasic
  obtain ⟨colon, hcolon, heq⟩ := Option.map_eq_some_iff.mp h
  obtain ⟨rfl, rfl⟩ := Prod.mk.inj heq
  obtain ⟨encoded, hencoded⟩ := List.isPrefixOf_iff_prefix.mp hbasic
  have hlen : (ascii "Basic ").length = 6 := rfl
  have hdrop : (headerValue block (ascii "Authorization")).drop 6 = encoded := by
    rw [← hencoded, List.drop_left' hlen]
  rw [hdrop] at hcolon ⊢
  have hne : headerValue block (ascii "Authorization") ≠ [] := by
    intro hnil
    rw [hnil] at hencoded
    have hlength := congrArg List.length hencoded
    rw [List.length_append, hlen] at hlength
    simp at hlength
  refine ⟨encoded, _, _, ?_, eq_of_indexOf hcolon, notMem_take_of_indexOf hcolon, rfl, rfl⟩
  have hline := headerLine_of_headerValue hfirst hne
  rwa [← hencoded] at hline

def State.LockedOut (address : Address) (t : Clock) : Prop :=
  ∃ e, s.failedAuth.lookup address = some e ∧ e.locked t.checkAt = true

-- The credentials of the request, as the two ways in read them.
def State.RightPair (line : RequestLine) : Prop :=
  ∃ user pass, pairCredentials qt line = some (user, pass) ∧ user = qt.toUtf8 s.user ∧
    verify qt pass s.passwordHash = true

def State.RightBasic (block : Bytes) : Prop :=
  ∃ user pass, basicCredentials qt block = some (user, pass) ∧ s.Current qt user pass

end Credentials

section Steps

variable {qt : Qt} {s : State} {line : RequestLine} {headers : Bytes} {clientIp : Address}
  {t : Clock} {r : Random}

theorem upgradeLegacyHash_fst (pass : QString) :
    (s.upgradeLegacyHash qt pass r).1 =
      { s with passwordHash := (s.upgradeLegacyHash qt pass r).1.passwordHash } := by
  unfold State.upgradeLegacyHash
  split_ifs
  · rfl
  · rfl

theorem upgradeLegacyHash_out (pass : QString) :
    ∀ o ∈ (s.upgradeLegacyHash qt pass r).2, ∃ newHash, o = .passwordHashUpgraded newHash := by
  unfold State.upgradeLegacyHash
  split_ifs
  · rintro o ho
    exact ⟨_, List.mem_singleton.mp ho⟩
  · simp

theorem checkAuth_iff : (s.checkAuth qt headers clientIp t r).1 = true ↔
    (s.failedAuthOf clientIp t).locked t.checkAt = false ∧ s.RightBasic qt headers := by
  unfold State.checkAuth State.RightBasic State.Current
  cases hlocked : (s.failedAuthOf clientIp t).locked t.checkAt with
  | true => simp [hlocked]
  | false =>
      cases hbasic : basicCredentials qt headers with
      | none => simp [hlocked]
      | some c =>
          obtain ⟨user, pass⟩ := c
          cases hok : constantTimeEquals (qt.toUtf8 user) (qt.toUtf8 s.user) &&
              verify qt pass s.passwordHash with
          | true =>
              simp only [Bool.and_eq_true, constantTimeEquals_iff] at hok
              simp [hlocked, hok, constantTimeEquals_iff]
          | false =>
              have hnot : ¬ (qt.toUtf8 user = qt.toUtf8 s.user ∧ verify qt pass s.passwordHash = true) := by
                rw [← constantTimeEquals_iff, ← Bool.and_eq_true, hok]
                exact Bool.false_ne_true
              simpa [hlocked, hok] using hnot

theorem checkAuth_out : ∀ o ∈ (s.checkAuth qt headers clientIp t r).2.2,
    ∃ newHash, o = .passwordHashUpgraded newHash := by
  cases hlocked : (s.failedAuthOf clientIp t).locked t.checkAt with
  | true => simp [State.checkAuth, hlocked]
  | false =>
      cases hbasic : basicCredentials qt headers with
      | none => simp [State.checkAuth, hlocked, hbasic]
      | some c =>
          obtain ⟨user, pass⟩ := c
          cases hok : constantTimeEquals (qt.toUtf8 user) (qt.toUtf8 s.user) &&
              verify qt pass s.passwordHash with
          | true =>
              simp only [State.checkAuth, hlocked, hbasic, hok, Bool.false_eq_true, if_false, if_true]
              exact upgradeLegacyHash_out pass
          | false => simp [State.checkAuth, hlocked, hbasic, hok]

theorem pair_iff : (s.pair qt line clientIp t r).1 = true ↔ s.RightPair qt line := by
  unfold State.pair State.RightPair
  cases hpair : pairCredentials qt line with
  | none => simp
  | some c =>
      obtain ⟨user, pass⟩ := c
      cases hok : constantTimeEquals user (qt.toUtf8 s.user) && verify qt pass s.passwordHash with
      | true =>
          simp only [Bool.and_eq_true, constantTimeEquals_iff] at hok
          simp [hok, constantTimeEquals_iff]
      | false =>
          have hnot : ¬ (user = qt.toUtf8 s.user ∧ verify qt pass s.passwordHash = true) := by
            rw [← constantTimeEquals_iff, ← Bool.and_eq_true, hok]
            exact Bool.false_ne_true
          simpa [hok] using hnot

-- A device that is not paired leaves a trace in the attempts alone.
theorem pair_false (h : (s.pair qt line clientIp t r).1 = false) :
    (s.pair qt line clientIp t r).2.2 = [] ∧
      ∃ attempts, (s.pair qt line clientIp t r).2.1 = { s with attempts := attempts } := by
  unfold State.pair at h ⊢
  cases hpair : pairCredentials qt line with
  | none => exact ⟨rfl, s.attempts, rfl⟩
  | some c =>
      simp only [hpair] at h ⊢
      split_ifs at h ⊢ with hok
      exact ⟨rfl, _, rfl⟩

theorem pair_true (h : (s.pair qt line clientIp t r).1 = true) :
    ∃ token, .issued token ∈ (s.pair qt line clientIp t r).2.2 := by
  unfold State.pair at h ⊢
  cases hpair : pairCredentials qt line with
  | none => simp [hpair] at h
  | some c =>
      simp only [hpair] at h ⊢
      split_ifs at h ⊢ with hok
      exact ⟨_, List.mem_append_left _ List.mem_cons_self⟩

theorem checkSession_snd : ∃ tokens,
    (s.checkSession headers t).2 = { s with sessionTokens := tokens } := by
  unfold State.checkSession
  cases cookieToken headers with
  | none => exact ⟨_, rfl⟩
  | some token =>
      dsimp only
      cases s.sessionTokens.lookup token with
      | none => exact ⟨_, rfl⟩
      | some issuedAt =>
          dsimp only
          split_ifs
          · exact ⟨_, rfl⟩
          · exact ⟨_, rfl⟩

theorem checkSession_iff : (s.checkSession headers t).1 = true ↔ ∃ token issuedAt,
    cookieToken headers = some token ∧ s.sessionTokens.lookup token = some issuedAt ∧
      t.sessionAt / 1000 - issuedAt ≤ kSessionMaxAgeSec := by
  unfold State.checkSession
  cases htoken : cookieToken headers with
  | none => simp
  | some token =>
      dsimp only
      cases hlookup : s.sessionTokens.lookup token with
      | none => simp [hlookup]
      | some issuedAt =>
          dsimp only
          split_ifs with hage
          · simp [hlookup]
            omega
          · simp [hlookup]
            omega

-- The ways through the gates, each with what it does.
inductive Passage (qt : Qt) (s : State) (line : RequestLine) (headers : Bytes) (clientIp : Address)
    (t : Clock) (r : Random) : Bool × State × List Out → Prop where
  | off (huser : s.user = []) : Passage qt s line headers clientIp t r (false, s, [])
  | paired (huser : s.user ≠ []) (hpair : (s.pair qt line clientIp t r).1 = true) :
      Passage qt s line headers clientIp t r
        (true, (s.pair qt line clientIp t r).2.1,
          .responded 302 :: (s.pair qt line clientIp t r).2.2)
  | login {s₁ : State} (huser : s.user ≠ []) (hpair : (s.pair qt line clientIp t r).1 = false)
      (hs₁ : s₁ = (s.pair qt line clientIp t r).2.1) (hlogin : isLogin line = true)
      (hauth : (s₁.checkAuth qt headers clientIp t r).1 = true) :
      Passage qt s line headers clientIp t r
        (true, ((s₁.checkAuth qt headers clientIp t r).2.1.issueSessionCookie t r).1,
          .responded 200 :: ((s₁.checkAuth qt headers clientIp t r).2.1.issueSessionCookie t r).2 ++
            (s₁.checkAuth qt headers clientIp t r).2.2)
  | live {s₁ : State} (huser : s.user ≠ []) (hpair : (s.pair qt line clientIp t r).1 = false)
      (hs₁ : s₁ = (s.pair qt line clientIp t r).2.1) (hlogin : isLogin line = false)
      (hlive : (s₁.checkSession headers t).1 = true) :
      Passage qt s line headers clientIp t r (false, (s₁.checkSession headers t).2, [])
  | basic {s₁ s₂ : State} (huser : s.user ≠ []) (hpair : (s.pair qt line clientIp t r).1 = false)
      (hs₁ : s₁ = (s.pair qt line clientIp t r).2.1) (hlogin : isLogin line = false)
      (hlive : (s₁.checkSession headers t).1 = false) (hs₂ : s₂ = (s₁.checkSession headers t).2)
      (hauth : (s₂.checkAuth qt headers clientIp t r).1 = true) :
      Passage qt s line headers clientIp t r
        (false, (s₂.checkAuth qt headers clientIp t r).2)
  | loginRefused {s₁ : State} (huser : s.user ≠ [])
      (hpair : (s.pair qt line clientIp t r).1 = false)
      (hs₁ : s₁ = (s.pair qt line clientIp t r).2.1) (hlogin : isLogin line = true)
      (hauth : (s₁.checkAuth qt headers clientIp t r).1 = false) :
      Passage qt s line headers clientIp t r
        (true, (s₁.checkAuth qt headers clientIp t r).2.1, [.responded 401])
  | refused {s₁ s₂ : State} (huser : s.user ≠ []) (hpair : (s.pair qt line clientIp t r).1 = false)
      (hs₁ : s₁ = (s.pair qt line clientIp t r).2.1) (hlogin : isLogin line = false)
      (hlive : (s₁.checkSession headers t).1 = false) (hs₂ : s₂ = (s₁.checkSession headers t).2)
      (hauth : (s₂.checkAuth qt headers clientIp t r).1 = false) :
      Passage qt s line headers clientIp t r
        (true, (s₂.checkAuth qt headers clientIp t r).2.1, [.responded 401])

theorem passage : Passage qt s line headers clientIp t r
    (s.handleAuthGates qt line headers clientIp t r) := by
  unfold State.handleAuthGates
  by_cases huser : s.user = []
  · rw [if_pos huser]
    exact .off huser
  · rw [if_neg huser]
    dsimp only
    cases hpair : (s.pair qt line clientIp t r).1 with
    | true =>
        rw [if_pos rfl]
        exact .paired huser hpair
    | false =>
        rw [if_neg Bool.false_ne_true]
        cases hlogin : isLogin line with
        | true =>
            rw [if_pos rfl]
            cases hauth : ((s.pair qt line clientIp t r).2.1.checkAuth qt headers clientIp t r).1 with
            | true =>
                rw [if_pos rfl]
                exact .login huser hpair rfl hlogin hauth
            | false =>
                rw [if_neg Bool.false_ne_true]
                exact .loginRefused huser hpair rfl hlogin hauth
        | false =>
            rw [if_neg Bool.false_ne_true]
            cases hlive : ((s.pair qt line clientIp t r).2.1.checkSession headers t).1 with
            | true =>
                rw [if_pos rfl]
                exact .live huser hpair rfl hlogin hlive
            | false =>
                rw [if_neg Bool.false_ne_true]
                cases hauth : (((s.pair qt line clientIp t r).2.1.checkSession headers t).2.checkAuth qt
                    headers clientIp t r).1 with
                | true =>
                    rw [if_pos rfl]
                    exact .basic huser hpair rfl hlogin hlive rfl hauth
                | false =>
                    rw [if_neg Bool.false_ne_true]
                    exact .refused huser hpair rfl hlogin hlive rfl hauth

end Steps

section Sessions

variable {qt : Qt} {s s' : State} {line : RequestLine} {headers : Bytes} {clientIp : Address}
  {t : Clock} {r : Random}

-- Every session was issued since the credentials last changed, when the server says.
def State.Known (s : State) : Prop :=
  ∀ token issuedAt, s.sessionTokens.lookup token = some issuedAt → (token, issuedAt) ∈ s.issued

structure SameSessions (s s' : State) : Prop where
  sessionTokens : s'.sessionTokens = s.sessionTokens
  issued : s'.issued = s.issued

theorem SameSessions.known (h : SameSessions s s') (hs : s.Known) : s'.Known := by
  intro token issuedAt hlookup
  rw [h.sessionTokens] at hlookup
  rw [h.issued]
  exact hs token issuedAt hlookup

theorem upgradeLegacyHash_sessions (pass : QString) :
    SameSessions s (s.upgradeLegacyHash qt pass r).1 := by
  rw [upgradeLegacyHash_fst]
  exact ⟨rfl, rfl⟩

theorem checkAuth_sessions : SameSessions s (s.checkAuth qt headers clientIp t r).2.1 := by
  cases hlocked : (s.failedAuthOf clientIp t).locked t.checkAt with
  | true =>
      simp only [State.checkAuth, hlocked, if_true]
      exact ⟨rfl, rfl⟩
  | false =>
      cases hbasic : basicCredentials qt headers with
      | none =>
          simp only [State.checkAuth, hlocked, hbasic, Bool.false_eq_true, if_false]
          exact ⟨rfl, rfl⟩
      | some c =>
          obtain ⟨user, pass⟩ := c
          simp only [State.checkAuth, hlocked, hbasic, Bool.false_eq_true, if_false]
          split_ifs
          · exact ⟨(upgradeLegacyHash_sessions pass).sessionTokens,
              (upgradeLegacyHash_sessions pass).issued⟩
          · exact ⟨rfl, rfl⟩
          · exact ⟨rfl, rfl⟩

theorem known_issue (h : s.Known) : (s.issueSessionCookie t r).1.Known := by
  intro token issuedAt hlookup
  by_cases heq : token = toHex r.token.toList
  · subst heq
    have hlookup : (s.sessionTokens.insert _ (t.issuedAt / 1000)).lookup _ = some issuedAt := hlookup
    rw [AList.lookup_insert] at hlookup
    obtain rfl := Option.some.inj hlookup
    exact List.mem_cons_self
  · have hlookup : (s.sessionTokens.insert _ (t.issuedAt / 1000)).lookup token = some issuedAt := hlookup
    rw [AList.lookup_insert_ne heq] at hlookup
    exact List.mem_cons_of_mem _ (h token issuedAt hlookup)

theorem known_checkSession (h : s.Known) : (s.checkSession headers t).2.Known := by
  unfold State.checkSession
  cases cookieToken headers with
  | none => exact h
  | some token =>
      dsimp only
      cases s.sessionTokens.lookup token with
      | none => exact h
      | some issuedAt =>
          dsimp only
          split_ifs
          · intro token' issuedAt' hlookup
            by_cases heq : token' = token
            · subst heq
              rw [AList.lookup_erase] at hlookup
              cases hlookup
            · rw [AList.lookup_erase_ne heq] at hlookup
              exact h token' issuedAt' hlookup
          · exact h

theorem known_pair (h : s.Known) : (s.pair qt line clientIp t r).2.1.Known := by
  unfold State.pair
  cases pairCredentials qt line with
  | none => exact h
  | some c =>
      dsimp only
      split_ifs
      · exact known_issue ((upgradeLegacyHash_sessions _).known h)
      · exact h

theorem known_gates (h : s.Known) :
    (s.handleAuthGates qt line headers clientIp t r).2.1.Known := by
  have hpass : Passage qt s line headers clientIp t r
      (s.handleAuthGates qt line headers clientIp t r) := passage
  generalize s.handleAuthGates qt line headers clientIp t r = res at hpass ⊢
  cases hpass with
  | off => exact h
  | paired => exact known_pair h
  | login _ _ hs₁ => exact known_issue (checkAuth_sessions.known (hs₁ ▸ known_pair h))
  | live _ _ hs₁ => exact known_checkSession (hs₁ ▸ known_pair h)
  | basic _ _ hs₁ _ _ hs₂ => exact checkAuth_sessions.known (hs₂ ▸ known_checkSession (hs₁ ▸ known_pair h))
  | loginRefused _ _ hs₁ => exact checkAuth_sessions.known (hs₁ ▸ known_pair h)
  | refused _ _ hs₁ _ _ hs₂ =>
      exact checkAuth_sessions.known (hs₂ ▸ known_checkSession (hs₁ ▸ known_pair h))

end Sessions

section Gates

variable {qt : Qt} {s : State} {line : RequestLine} {headers data : Bytes} {clientIp : Address}
  {t : Clock} {r : Random}

def Out.Routes (o : Out) : Prop := ∃ line body, o = .routed line body

def Out.Issues (o : Out) : Prop := ∃ token, o = .issued token

theorem pair_out : ∀ o ∈ (s.pair qt line clientIp t r).2.2, ¬ o.Routes := by
  unfold State.pair
  cases pairCredentials qt line with
  | none => simp
  | some c =>
      dsimp only
      split_ifs
      · rintro o ho ⟨line, body, rfl⟩
        rcases List.mem_append.mp ho with hissued | hupgraded
        · simp [State.issueSessionCookie] at hissued
        · obtain ⟨_, heq⟩ := upgradeLegacyHash_out _ _ hupgraded
          cases heq
      · simp

-- The session, or the entry of the address and the credentials, decide who passes.
def State.Live (s : State) (headers : Bytes) (t : Clock) : Prop :=
  ∃ token issuedAt, cookieToken headers = some token ∧ s.sessionTokens.lookup token = some issuedAt ∧
    t.sessionAt / 1000 - issuedAt ≤ kSessionMaxAgeSec

def State.Open (s : State) (clientIp : Address) (t : Clock) : Prop :=
  (s.failedAuthOf clientIp t).locked t.checkAt = false

theorem not_rightPair (h : (s.pair qt line clientIp t r).1 = false) : ¬ s.RightPair qt line := by
  rw [← pair_iff, h]
  exact Bool.false_ne_true

-- The attempts that a pairing leaves behind decide nothing.
theorem checkAuth_of_pair {s₁ : State} (hpair : (s.pair qt line clientIp t r).1 = false)
    (hs₁ : s₁ = (s.pair qt line clientIp t r).2.1) :
    (s₁.checkAuth qt headers clientIp t r).1 = true ↔ s.Open clientIp t ∧ s.RightBasic qt headers := by
  obtain ⟨-, attempts, heq⟩ := pair_false hpair
  rw [hs₁, heq]
  have hiff : (State.checkAuth qt { s with attempts := attempts } headers clientIp t r).1 = true ↔ _ :=
    checkAuth_iff
  exact hiff

theorem checkSession_of_pair {s₁ : State} (hpair : (s.pair qt line clientIp t r).1 = false)
    (hs₁ : s₁ = (s.pair qt line clientIp t r).2.1) :
    (s₁.checkSession headers t).1 = true ↔ s.Live headers t := by
  obtain ⟨-, attempts, heq⟩ := pair_false hpair
  rw [hs₁, heq]
  have hiff : (State.checkSession { s with attempts := attempts } headers t).1 = true ↔ _ :=
    checkSession_iff
  exact hiff

theorem checkAuth_of_session {s₁ s₂ : State} (hs₂ : s₂ = (s₁.checkSession headers t).2) :
    (s₂.checkAuth qt headers clientIp t r).1 = (s₁.checkAuth qt headers clientIp t r).1 := by
  obtain ⟨tokens, heq⟩ : ∃ tokens, (s₁.checkSession headers t).2 =
      { s₁ with sessionTokens := tokens } := checkSession_snd
  rw [hs₂, heq, Bool.eq_iff_iff, checkAuth_iff, checkAuth_iff]
  exact Iff.rfl

theorem gates_routed_iff (huser : s.user ≠ []) :
    (s.handleAuthGates qt line headers clientIp t r).1 = false ↔
      ¬ s.RightPair qt line ∧ isLogin line = false ∧
        (s.Live headers t ∨ s.Open clientIp t ∧ s.RightBasic qt headers) := by
  have hpass : Passage qt s line headers clientIp t r
      (s.handleAuthGates qt line headers clientIp t r) := passage
  generalize s.handleAuthGates qt line headers clientIp t r = res at hpass ⊢
  cases hpass with
  | off hoff => exact absurd hoff huser
  | paired _ hpair => simp [pair_iff.mp hpair]
  | login _ _ _ hlogin _ => simp [hlogin]
  | loginRefused _ _ _ hlogin _ => simp [hlogin]
  | live _ hpair hs₁ hlogin hlive =>
      have hlive := (checkSession_of_pair hpair hs₁).mp hlive
      exact iff_of_true rfl ⟨not_rightPair hpair, hlogin, .inl hlive⟩
  | basic _ hpair hs₁ hlogin _ hs₂ hauth =>
      rw [checkAuth_of_session hs₂] at hauth
      have hauth := (checkAuth_of_pair hpair hs₁).mp hauth
      exact iff_of_true rfl ⟨not_rightPair hpair, hlogin, .inr hauth⟩
  | refused _ hpair hs₁ _ hlive hs₂ hauth =>
      rw [checkAuth_of_session hs₂] at hauth
      have hnotLive := mt (checkSession_of_pair hpair hs₁).mpr (by rw [hlive]; simp)
      have hnotAuth := mt (checkAuth_of_pair hpair hs₁).mpr (by rw [hauth]; simp)
      exact iff_of_false (by simp) fun h => h.2.2.elim hnotLive hnotAuth

theorem gates_issued_iff (huser : s.user ≠ []) :
    (∃ o ∈ (s.handleAuthGates qt line headers clientIp t r).2.2, o.Issues) ↔
      s.RightPair qt line ∨
        ¬ s.RightPair qt line ∧ isLogin line = true ∧ s.Open clientIp t ∧ s.RightBasic qt headers := by
  have hpass : Passage qt s line headers clientIp t r
      (s.handleAuthGates qt line headers clientIp t r) := passage
  generalize s.handleAuthGates qt line headers clientIp t r = res at hpass ⊢
  cases hpass with
  | off hoff => exact absurd hoff huser
  | paired _ hpair =>
      obtain ⟨token, htoken⟩ := pair_true hpair
      exact iff_of_true ⟨_, List.mem_cons_of_mem _ htoken, token, rfl⟩ (.inl (pair_iff.mp hpair))
  | login _ hpair hs₁ hlogin hauth =>
      have hauth := (checkAuth_of_pair hpair hs₁).mp hauth
      exact iff_of_true ⟨_, List.mem_cons_of_mem _ (List.mem_append_left _ List.mem_cons_self), _, rfl⟩
        (.inr ⟨not_rightPair hpair, hlogin, hauth⟩)
  | loginRefused _ hpair hs₁ _ hauth =>
      have hnotAuth := mt (checkAuth_of_pair hpair hs₁).mpr (by rw [hauth]; simp)
      refine iff_of_false (by simp [Out.Issues]) ?_
      rintro (hright | ⟨-, -, hright⟩)
      · exact not_rightPair hpair hright
      · exact hnotAuth hright
  | live _ hpair _ hlogin =>
      exact iff_of_false (by simp) (by simp [not_rightPair hpair, hlogin])
  | basic _ hpair _ hlogin =>
      refine iff_of_false ?_ (by simp [not_rightPair hpair, hlogin])
      rintro ⟨o, ho, token, rfl⟩
      obtain ⟨_, heq⟩ := checkAuth_out _ ho
      cases heq
  | refused _ hpair _ hlogin =>
      exact iff_of_false (by simp [Out.Issues]) (by simp [not_rightPair hpair, hlogin])

theorem gates_not_routed : ∀ o ∈ (s.handleAuthGates qt line headers clientIp t r).2.2,
    ¬ o.Routes := by
  have hpass : Passage qt s line headers clientIp t r
      (s.handleAuthGates qt line headers clientIp t r) := passage
  have hauth : ∀ s : State, ∀ o ∈ (s.checkAuth qt headers clientIp t r).2.2, ¬ o.Routes := by
    rintro s o ho ⟨line, body, rfl⟩
    obtain ⟨_, heq⟩ := checkAuth_out _ ho
    cases heq
  generalize s.handleAuthGates qt line headers clientIp t r = res at hpass ⊢
  cases hpass with
  | off => simp
  | paired =>
      intro o ho
      rcases List.mem_cons.mp ho with rfl | ho
      · rintro ⟨_, _, ⟨⟩⟩
      · exact pair_out o ho
  | login =>
      intro o ho
      rcases List.mem_cons.mp ho with rfl | ho
      · rintro ⟨_, _, ⟨⟩⟩
      · rcases List.mem_append.mp ho with hissued | ho
        · rintro ⟨_, _, rfl⟩
          simp [State.issueSessionCookie] at hissued
        · exact hauth _ o ho
  | live => simp
  | basic => exact hauth _
  | loginRefused => simp [Out.Routes]
  | refused => simp [Out.Routes]

theorem dispatch_snd (hline : requestLineOf data = some line) :
    (s.dispatch qt clientIp data t r).2 =
      if (s.handleAuthGates qt line (headersOf data) clientIp t r).1 then
        (s.handleAuthGates qt line (headersOf data) clientIp t r).2.2
      else .routed line (bodyOf data) ::
        (s.handleAuthGates qt line (headersOf data) clientIp t r).2.2 := by
  unfold State.dispatch
  rw [hline]
  dsimp only
  split_ifs
  · rfl
  · rfl

theorem dispatch_routes_iff (huser : s.user ≠ []) (hline : requestLineOf data = some line) :
    (∃ o ∈ (s.dispatch qt clientIp data t r).2, o.Routes) ↔
      ¬ s.RightPair qt line ∧ isLogin line = false ∧
        (s.Live (headersOf data) t ∨ s.Open clientIp t ∧ s.RightBasic qt (headersOf data)) := by
  rw [← gates_routed_iff huser (r := r), dispatch_snd hline]
  split_ifs with hanswered
  · rw [hanswered]
    refine iff_of_false ?_ (by simp)
    rintro ⟨o, ho, hroutes⟩
    exact gates_not_routed o ho hroutes
  · exact iff_of_true ⟨_, List.mem_cons_self, line, _, rfl⟩ (by simpa using hanswered)

theorem dispatch_issues_iff (huser : s.user ≠ []) (hline : requestLineOf data = some line) :
    (∃ o ∈ (s.dispatch qt clientIp data t r).2, o.Issues) ↔
      s.RightPair qt line ∨ ¬ s.RightPair qt line ∧ isLogin line = true ∧ s.Open clientIp t ∧
        s.RightBasic qt (headersOf data) := by
  rw [← gates_issued_iff huser (r := r), dispatch_snd hline]
  split_ifs with hanswered
  · exact Iff.rfl
  · simp [Out.Issues]

end Gates

section Runs

variable (qt : Qt)

-- A request that one read completes.
structure Request where
  peer : Address
  data : Bytes
  t : Clock

def requestOf (r : Reaction State Event Out) : Option Request :=
  match r.event with
  | .received socket bytes t _ =>
      (r.before.pending socket).bind fun (peer, p) =>
        match readMore p bytes with
        | .complete _ data => some ⟨peer, data, t⟩
        | _ => none
  | _ => none

-- The header block has a token issued since the credentials last changed, and not too long ago.
def State.SessionOk (s : State) (q : Request) : Prop :=
  ∃ token issuedAt, Carries (headersOf q.data) token ∧ (token, issuedAt) ∈ s.issued ∧
    q.t.sessionAt / 1000 - issuedAt ≤ kSessionMaxAgeSec

def State.BasicOk (s : State) (q : Request) : Prop :=
  (∃ user pass, HasBasic qt (headersOf q.data) user pass ∧ s.Current qt user pass) ∧
    ¬ s.LockedOut q.peer q.t

def State.PairOk (s : State) (q : Request) : Prop :=
  (∃ line, requestLineOf q.data = some line ∧ s.RightPair qt line) ∧ ¬ s.LockedOut q.peer q.t

structure Gated (r : Reaction State Event Out) : Prop where
  routed : (∃ o ∈ r.out, o.Routes) →
    ∃ q, requestOf r = some q ∧ (r.before.SessionOk q ∨ r.before.BasicOk qt q)
  issued : (∃ o ∈ r.out, o.Issues) →
    ∃ q, requestOf r = some q ∧ (r.before.BasicOk qt q ∨ r.before.PairOk qt q)

-- The lock of an address is not passed: a pairing looks at no lock, and the eviction that a check
-- starts with can drop one that has not run out.
structure Barred (r : Reaction State Event Out) : Prop where
  pair : ∀ q line, requestOf r = some q → requestLineOf q.data = some line →
    r.before.LockedOut q.peer q.t → ¬ r.before.RightPair qt line
  kept : ∀ q line, requestOf r = some q → requestLineOf q.data = some line →
    r.before.LockedOut q.peer q.t → r.before.Open q.peer q.t →
    r.before.RightBasic qt (headersOf q.data) → isLogin line = false ∧ r.before.SessionOk q

variable {qt}

theorem known_next {s s' : State} {a : Event} {out : List Out} (h : s.Known)
    (hnext : s.next qt a = some (s', out)) : s'.Known := by
  cases a with
  | setCredentials user passwordHash =>
      obtain ⟨rfl, -⟩ := Prod.mk.inj (Option.some.inj hnext)
      intro token issuedAt hlookup
      cases hlookup
  | connected socket peer =>
      rw [State.next] at hnext
      split_ifs at hnext
      obtain ⟨rfl, -⟩ := Prod.mk.inj (Option.some.inj hnext)
      exact h
  | received socket bytes t r =>
      obtain ⟨⟨peer, p⟩, -, heq⟩ := Option.map_eq_some_iff.mp hnext
      dsimp only at heq
      cases hread : readMore p bytes with
      | wait p =>
          rw [hread] at heq
          obtain ⟨rfl, -⟩ := Prod.mk.inj heq
          exact h
      | refused p status =>
          rw [hread] at heq
          obtain ⟨rfl, -⟩ := Prod.mk.inj heq
          exact h
      | complete p data =>
          rw [hread] at heq
          dsimp only [State.dispatch] at heq
          cases hline : requestLineOf data with
          | none =>
              rw [hline] at heq
              obtain ⟨rfl, -⟩ := Prod.mk.inj heq
              exact h
          | some line =>
              rw [hline] at heq
              dsimp only at heq
              have hgates : (State.handleAuthGates qt
                  ({ s with now := t.issuedAt }.setPending socket (some (peer, p))) line
                  (headersOf data) peer t r).2.1.Known := known_gates h
              split_ifs at heq
              · obtain ⟨rfl, -⟩ := Prod.mk.inj heq
                exact hgates
              · obtain ⟨rfl, -⟩ := Prod.mk.inj heq
                exact hgates
  | disconnected socket =>
      obtain ⟨rfl, -⟩ := Prod.mk.inj (Option.some.inj hnext)
      exact h
  | stopped =>
      obtain ⟨rfl, -⟩ := Prod.mk.inj (Option.some.inj hnext)
      exact h

theorem run_known {past : List (Reaction State Event Out)} {s : State}
    (hrun : (machine qt).Run (fun _ _ => True) past s) : s.Known := by
  refine Machine.Run.invariant State.Known ?_ (fun _ _ _ _ h _ hnext => known_next h hnext) hrun
  intro token issuedAt hlookup
  cases hlookup

section Step

variable {s : State} {line : RequestLine} {q : Request}

theorem sessionOk_of_live (h : s.Known) (hline : requestLineOf q.data = some line)
    (hlive : s.Live (headersOf q.data) q.t) : s.SessionOk q := by
  obtain ⟨token, issuedAt, htoken, hlookup, hage⟩ := hlive
  exact ⟨token, issuedAt, carries_of_cookieToken (not_crlf_first hline) htoken,
    h token issuedAt hlookup, hage⟩

theorem basicOk_of_right (hline : requestLineOf q.data = some line)
    (hright : s.RightBasic qt (headersOf q.data)) (hopen : ¬ s.LockedOut q.peer q.t) :
    s.BasicOk qt q := by
  obtain ⟨user, pass, hbasic, hcurrent⟩ := hright
  exact ⟨⟨user, pass, hasBasic_of_basicCredentials qt (not_crlf_first hline) hbasic, hcurrent⟩, hopen⟩

-- A step that completes a request with a request line, by what the gates decide.
theorem gated_iff_of_gates {r : Reaction State Event Out} (h : r.before.Known)
    (hq : requestOf r = some q) (hline : requestLineOf q.data = some line)
    (hroutes : (∃ o ∈ r.out, o.Routes) ↔ ¬ r.before.RightPair qt line ∧ isLogin line = false ∧
      (r.before.Live (headersOf q.data) q.t ∨
        r.before.Open q.peer q.t ∧ r.before.RightBasic qt (headersOf q.data)))
    (hissues : (∃ o ∈ r.out, o.Issues) ↔ r.before.RightPair qt line ∨
      ¬ r.before.RightPair qt line ∧ isLogin line = true ∧ r.before.Open q.peer q.t ∧
        r.before.RightBasic qt (headersOf q.data)) : Gated qt r ↔ Barred qt r := by
  constructor
  · intro hgated
    have hnotIssued : r.before.LockedOut q.peer q.t → ¬ ∃ o ∈ r.out, o.Issues := by
      intro hlocked hissued
      obtain ⟨q', hq', hok⟩ := hgated.issued hissued
      obtain rfl : q = q' := Option.some.inj (hq.symm.trans hq')
      exact hok.elim (fun hbasic => hbasic.2 hlocked) fun hpair => hpair.2 hlocked
    have hpair : r.before.LockedOut q.peer q.t → ¬ r.before.RightPair qt line :=
      fun hlocked hright => hnotIssued hlocked (hissues.mpr (.inl hright))
    refine ⟨?_, ?_⟩
    · intro q' line' hq' hline' hlocked
      obtain rfl : q = q' := Option.some.inj (hq.symm.trans hq')
      obtain rfl : line = line' := Option.some.inj (hline.symm.trans hline')
      exact hpair hlocked
    · intro q' line' hq' hline' hlocked hopen hright
      obtain rfl : q = q' := Option.some.inj (hq.symm.trans hq')
      obtain rfl : line = line' := Option.some.inj (hline.symm.trans hline')
      have hlogin : isLogin line = false := by
        by_contra hlogin
        exact hnotIssued hlocked
          (hissues.mpr (.inr ⟨hpair hlocked, by simpa using hlogin, hopen, hright⟩))
      obtain ⟨q', hq', hok⟩ :=
        hgated.routed (hroutes.mpr ⟨hpair hlocked, hlogin, .inr ⟨hopen, hright⟩⟩)
      obtain rfl : q = q' := Option.some.inj (hq.symm.trans hq')
      exact ⟨hlogin, hok.elim id fun hbasic => absurd hlocked hbasic.2⟩
  · intro hbarred
    refine ⟨?_, ?_⟩
    · intro hrouted
      obtain ⟨-, -, hlive | ⟨hopen, hright⟩⟩ := hroutes.mp hrouted
      · exact ⟨q, hq, .inl (sessionOk_of_live h hline hlive)⟩
      · by_cases hlocked : r.before.LockedOut q.peer q.t
        · exact ⟨q, hq, .inl (hbarred.kept q line hq hline hlocked hopen hright).2⟩
        · exact ⟨q, hq, .inr (basicOk_of_right hline hright hlocked)⟩
    · intro hissued
      rcases hissues.mp hissued with hright | ⟨-, hlogin, hopen, hright⟩
      · exact ⟨q, hq, .inr ⟨⟨line, hline, hright⟩, fun hlocked =>
          hbarred.pair q line hq hline hlocked hright⟩⟩
      · refine ⟨q, hq, .inl (basicOk_of_right hline hright fun hlocked => ?_)⟩
        have hother := (hbarred.kept q line hq hline hlocked hopen hright).1
        rw [hlogin] at hother
        cases hother

-- A step that completes no request routes none and issues nothing.
theorem gated_iff_of_none {r : Reaction State Event Out}
    (hq : ∀ q line, requestOf r = some q → requestLineOf q.data ≠ some line)
    (hroutes : ¬ ∃ o ∈ r.out, o.Routes) (hissues : ¬ ∃ o ∈ r.out, o.Issues) :
    Gated qt r ↔ Barred qt r :=
  iff_of_true ⟨fun h => absurd h hroutes, fun h => absurd h hissues⟩
    ⟨fun q line h hline => absurd hline (hq q line h), fun q line h hline => absurd hline (hq q line h)⟩

theorem gated_iff {s' : State} {a : Event} {out : List Out} (h : s.Known) (huser : s.user ≠ [])
    (hnext : s.next qt a = some (s', out)) : Gated qt ⟨s, a, out⟩ ↔ Barred qt ⟨s, a, out⟩ := by
  cases a with
  | received socket bytes t r =>
      obtain ⟨⟨peer, p⟩, hpending, heq⟩ := Option.map_eq_some_iff.mp hnext
      dsimp only at heq
      cases hread : readMore p bytes with
      | wait p' =>
          rw [hread] at heq
          obtain ⟨-, rfl⟩ := Prod.mk.inj heq
          exact gated_iff_of_none (by simp [requestOf, hpending, hread]) (by simp) (by simp)
      | refused p' status =>
          rw [hread] at heq
          obtain ⟨-, rfl⟩ := Prod.mk.inj heq
          exact gated_iff_of_none (by simp [requestOf, hpending, hread]) (by simp [Out.Routes])
            (by simp [Out.Issues])
      | complete p' data =>
          have hq : requestOf ⟨s, .received socket bytes t r, out⟩ = some ⟨peer, data, t⟩ := by
            simp [requestOf, hpending, hread]
          rw [hread] at heq
          dsimp only at heq
          obtain rfl := congrArg Prod.snd heq
          cases hline : requestLineOf data with
          | none =>
              have hout : (State.dispatch qt ({ s with now := t.issuedAt }.setPending socket
                  (some (peer, p'))) peer data t r).2 = [.responded 400] := by
                simp [State.dispatch, hline]
              refine gated_iff_of_none ?_ (by simp [hout, Out.Routes]) (by simp [hout, Out.Issues])
              intro q line hq' hline'
              obtain rfl := Option.some.inj (hq.symm.trans hq')
              rw [hline] at hline'
              cases hline'
          | some line =>
              exact gated_iff_of_gates h hq hline (dispatch_routes_iff huser hline)
                (dispatch_issues_iff huser hline)
  | setCredentials user passwordHash =>
      obtain ⟨-, rfl⟩ := Prod.mk.inj (Option.some.inj hnext)
      exact gated_iff_of_none (by simp [requestOf]) (by simp) (by simp)
  | connected socket peer =>
      rw [State.next] at hnext
      split_ifs at hnext
      obtain ⟨-, rfl⟩ := Prod.mk.inj (Option.some.inj hnext)
      exact gated_iff_of_none (by simp [requestOf]) (by simp) (by simp)
  | disconnected socket =>
      obtain ⟨-, rfl⟩ := Prod.mk.inj (Option.some.inj hnext)
      exact gated_iff_of_none (by simp [requestOf]) (by simp) (by simp)
  | stopped =>
      obtain ⟨-, rfl⟩ := Prod.mk.inj (Option.some.inj hnext)
      exact gated_iff_of_none (by simp [requestOf]) (by simp) (by simp)

end Step

theorem run_gated {past : List (Reaction State Event Out)} {s : State}
    (hrun : (machine qt).Run (fun _ _ => True) past s) :
    (∀ r ∈ past, r.before.user ≠ [] → Gated qt r) ↔
      ∀ r ∈ past, r.before.user ≠ [] → Barred qt r := by
  have hstep : ∀ r ∈ past, r.before.user ≠ [] → (Gated qt r ↔ Barred qt r) := by
    intro r hr huser
    obtain ⟨earlier, s', hearlier, -, hnext⟩ := hrun.before hr
    exact gated_iff (run_known hearlier) huser hnext
  exact ⟨fun h r hr huser => (hstep r hr huser).mp (h r hr huser),
    fun h r hr huser => (hstep r hr huser).mpr (h r hr huser)⟩

end Runs

section Sample

-- The keys of the two passwords that are tried, after one round and with a salt of one byte.
def sampleKey : Bytes :=
  fromHex (ascii "5ac8bd00bb1e1db304884e1d5f53d2306f9548395be95228df5af17bd7f1b2b5")

def otherKey : Bytes :=
  fromHex (ascii "996710c28f6e0d22fce385abbd4ee1193d630d7b5697876682b70a96990504f7")

def sampleQt : Qt where
  toUtf8 t := t.map fun c => UInt8.ofNat c.toNat
  fromUtf8 bs := bs.map fun b => Char.ofNat b.toNat
  sha256 _ := []
  deriveKeyPbkdf2 password _ _ _ := if password = ascii "p" then sampleKey else otherKey

def sampleHash : QString := "pbkdf2$1$01$5ac8bd00bb1e1db304884e1d5f53d2306f9548395be95228df5af17bd7f1b2b5".toList

def sampleClock (ms : Int) : Clock := ⟨ms, ms, ms, ms, ms, ms⟩

def sampleRandom : Random := ⟨Vector.replicate 32 7, Vector.replicate kSaltLen 9⟩

def basicRequest (encoded : String) : Bytes :=
  ascii "GET / HTTP/1.1\r\nAuthorization: Basic " ++ ascii encoded ++ crlf ++ crlf

def pairRequest : Bytes := ascii "GET /?pair=dTpw HTTP/1.1\r\n\r\n"

-- One connection with one request.
def requestOn (socket : Nat) (data : Bytes) (ms : Int) : List Event :=
  [.connected socket ['h'], .received socket data (sampleClock ms) sampleRandom]

theorem run_gated_basic : ∃ past s, (machine sampleQt).Run (fun _ _ => True) past s ∧
    s.attempts.map (·.ok) = [true] ∧ ((∀ r ∈ past, r.before.user ≠ [] → Gated sampleQt r) ↔
      ∀ r ∈ past, r.before.user ≠ [] → Barred sampleQt r) := by
  obtain ⟨past, s, hrun, hok⟩ : ∃ past s, (machine sampleQt).Run (fun _ _ => True) past s ∧
      s.attempts.map (·.ok) = [true] :=
    Machine.exists_run (.setCredentials ['u'] sampleHash :: requestOn 0 (basicRequest "dTpw") 1000)
      (by decide +kernel)
  exact ⟨past, s, hrun, hok, run_gated hrun⟩

-- Five wrong passwords lock the address; the right one on the other way in then signs it in.
def guesses : List Event := .setCredentials ['u'] sampleHash ::
  (List.range 5).flatMap fun i => requestOn i (basicRequest "dTp4") 1000

theorem run_not_gated : ∃ past s, (machine sampleQt).Run (fun _ _ => True) past s ∧
    ∃ r ∈ past, r.before.user ≠ [] ∧ ¬ Gated sampleQt r := by
  obtain ⟨past, s, hrun, huser, hhash, hpending, hlocked⟩ :
      ∃ past s, (machine sampleQt).Run (fun _ _ => True) past s ∧ s.user = ['u'] ∧
        s.passwordHash = sampleHash ∧ s.pending 9 = some (['h'], .init) ∧
        s.failedAuth.lookup ['h'] = some ⟨5, some 6000⟩ :=
    Machine.exists_run (guesses ++ [.connected 9 ['h']]) (by decide +kernel)
  have hread : readMore .init pairRequest =
      .complete ⟨pairRequest, 0, 28, true, true⟩ pairRequest := by rfl
  have hline : requestLineOf pairRequest = some ⟨ascii "GET", ascii "/", ascii "pair=dTpw"⟩ := by rfl
  have hpair : pairCredentials sampleQt ⟨ascii "GET", ascii "/", ascii "pair=dTpw"⟩ =
      some (ascii "u", ['p']) := by decide +kernel
  have hverify : verify sampleQt ['p'] sampleHash = true := by decide +kernel
  let event : Event := .received 9 pairRequest (sampleClock 2000) sampleRandom
  obtain ⟨⟨s', out⟩, hnext⟩ : ∃ res, s.next sampleQt event = some res :=
    ⟨_, congrArg (Option.map _) hpending⟩
  refine ⟨_, s', hrun.extend event trivial hnext, _, List.mem_cons_self, by simp [huser], ?_⟩
  rw [gated_iff (run_known hrun) (by simp [huser]) hnext]
  intro hbarred
  refine hbarred.pair ⟨['h'], pairRequest, sampleClock 2000⟩ _ ?_ hline ⟨_, hlocked, by decide⟩
    ⟨_, _, hpair, ?_, ?_⟩
  · simp [requestOf, event, hpending, hread]
  · rw [huser]
    rfl
  · rw [hhash]
    exact hverify

end Sample

end BATorrent.WebServer
