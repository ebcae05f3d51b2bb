import BATorrent.Webui.WebServer.Gate

namespace BATorrent.WebServer

open Lib Lib.ByteText PasswordHash
open Lib.DataStream (Bytes)

section Windows

-- The failures of an address since its last success. The attempts stand the last ones first.
def failures (address : Address) : List Attempt → Nat
  | [] => 0
  | a :: older =>
      if a.address ≠ address then failures address older
      else if a.ok then 0
      else failures address older + 1

-- The window behind the n-th failure, in milliseconds.
def penaltyMs (n : Nat) : Int := 1000 * min (5 * 2 ^ (n - 5)) 300

-- No window of the address is open at the time.
def Clear (address : Address) (time : Int) : List Attempt → Prop
  | [] => True
  | a :: older =>
      (a.address = address → a.ok = false → 5 ≤ failures address older + 1 →
        a.endedAt + penaltyMs (failures address older + 1) ≤ time) ∧ Clear address time older

-- Each password that is verified is verified in no window, and each penalty fits an int.
def Respected : List Attempt → Prop
  | [] => True
  | a :: older =>
      (a.verified = true → Clear a.address a.startedAt older) ∧
        (∀ n ∈ a.penalised, (5 : Int) * 2 ^ (n - 5) < 2 ^ 31) ∧ Respected older

instance decidableClear (address : Address) (time : Int) :
    ∀ attempts, Decidable (Clear address time attempts)
  | [] => .isTrue trivial
  | a :: older =>
      have := decidableClear address time older
      inferInstanceAs (Decidable ((a.address = address → a.ok = false →
        5 ≤ failures address older + 1 →
          a.endedAt + penaltyMs (failures address older + 1) ≤ time) ∧ Clear address time older))

instance decidableRespected : ∀ attempts, Decidable (Respected attempts)
  | [] => .isTrue trivial
  | a :: older =>
      have := decidableRespected older
      inferInstanceAs (Decidable ((a.verified = true → Clear a.address a.startedAt older) ∧
        (∀ n ∈ a.penalised, (5 : Int) * 2 ^ (n - 5) < 2 ^ 31) ∧ Respected older))

theorem Clear.mono {address : Address} {time time' : Int} {attempts : List Attempt}
    (h : Clear address time attempts) (hle : time ≤ time') : Clear address time' attempts := by
  induction attempts with
  | nil => trivial
  | cons a older ih =>
      obtain ⟨hhead, holder⟩ := h
      exact ⟨fun haddress hok hn => (hhead haddress hok hn).trans hle, ih holder⟩

theorem Clear.cons_ne {address : Address} {time : Int} {attempts : List Attempt} {a : Attempt}
    (h : Clear address time attempts) (hne : a.address ≠ address) : Clear address time (a :: attempts) :=
  ⟨fun heq => absurd heq hne, h⟩

theorem Clear.cons_ok {address : Address} {time : Int} {attempts : List Attempt} {a : Attempt}
    (h : Clear address time attempts) (hok : a.ok = true) : Clear address time (a :: attempts) := by
  refine ⟨fun _ hnot => ?_, h⟩
  rw [hok] at hnot
  cases hnot

theorem penaltySec_eq {n : Nat} (h : n ≤ 33) : 1000 * penaltySec n = penaltyMs n := by
  have hall : ∀ n : Fin 34, 1000 * penaltySec n = penaltyMs n := by decide
  exact hall ⟨n, by omega⟩

theorem penaltyMs_mono {n m : Nat} (h : n ≤ m) : penaltyMs n ≤ penaltyMs m := by
  have hpow : 2 ^ (n - 5) ≤ 2 ^ (m - 5) := Nat.pow_le_pow_right (by decide) (Nat.sub_le_sub_right h 5)
  have hcast : (2 : Int) ^ (n - 5) ≤ 2 ^ (m - 5) := by exact_mod_cast hpow
  unfold penaltyMs
  omega

theorem penalty_fits {n : Nat} (h : n ≤ 33) : (5 : Int) * 2 ^ (n - 5) < 2 ^ 31 := by
  have hpow : 2 ^ (n - 5) ≤ 2 ^ 28 := Nat.pow_le_pow_right (by decide) (by omega)
  have hcast : (2 : Int) ^ (n - 5) ≤ 2 ^ 28 := by exact_mod_cast hpow
  omega

end Windows

section Table

variable {table : AList fun _ : Address => FailedAuthState} {address : Address} {e : FailedAuthState}
  {now time : Int} {attempts : List Attempt}

-- Each address is in no window, or its entry has a lock past which none is open.
def Standing (table : AList fun _ : Address => FailedAuthState) (attempts : List Attempt) (time : Int) :
    Prop :=
  ∀ address, Clear address time attempts ∨ ∃ e u, table.lookup address = some e ∧
    e.lockedUntil = some u ∧ Clear address u attempts

theorem Standing.mono {time' : Int} (h : Standing table attempts time) (hle : time ≤ time') :
    Standing table attempts time' :=
  fun address => (h address).imp_left fun hclear => hclear.mono hle

theorem lookup_dropExpired (h : table.lookup address = some e) (hkept : e.expired now = false) :
    (dropExpired table now).lookup address = some e := by
  rw [← Option.mem_def, AList.mem_lookup_iff] at h ⊢
  exact List.mem_filter.mpr ⟨h, by simpa using hkept⟩

theorem Standing.dropExpired (h : Standing table attempts time) (hle : time ≤ now) :
    Standing (dropExpired table now) attempts now := by
  intro address
  rcases h address with hclear | ⟨e, u, hlookup, hlock, hclear⟩
  · exact .inl (hclear.mono hle)
  · cases hexpired : e.expired now with
    | false => exact .inr ⟨e, u, lookup_dropExpired hlookup hexpired, hlock, hclear⟩
    | true =>
        rw [FailedAuthState.expired, hlock, Option.any_some, decide_eq_true_eq] at hexpired
        exact .inl (hclear.mono hexpired.le)

theorem evictExpiredFailedAuth_eq (h : (dropExpired table now).entries.length ≤ kFailedAuthMax) :
    evictExpiredFailedAuth table now = dropExpired table now := by
  unfold evictExpiredFailedAuth
  rw [if_neg (Nat.not_lt.mpr h)]

-- The entry of an address that is not locked shows that no window of its is open.
theorem Standing.clear (h : Standing table attempts time) (hle : time ≤ now)
    (hopen : ((table.lookup address).getD ⟨0, none⟩).locked now = false) :
    Clear address now attempts := by
  rcases h address with hclear | ⟨e, u, hlookup, hlock, hclear⟩
  · exact hclear.mono hle
  · rw [hlookup, Option.getD_some, FailedAuthState.locked, hlock, Option.any_some,
      decide_eq_false_iff_not, Int.not_lt] at hopen
    exact hclear.mono hopen

-- Where one address is concerned by an attempt and has an entry of its own, the others stand.
theorem Standing.insert {a : Attempt} (h : Standing table attempts time) (hle : time ≤ now)
    (hown : Clear a.address now (a :: attempts) ∨
      ∃ u, e.lockedUntil = some u ∧ Clear a.address u (a :: attempts)) :
    Standing (table.insert a.address e) (a :: attempts) now := by
  intro address
  by_cases heq : address = a.address
  · subst heq
    refine hown.imp_right ?_
    rintro ⟨u, hlock, hclear⟩
    exact ⟨e, u, AList.lookup_insert _, hlock, hclear⟩
  · refine (h address).imp (fun hclear => (hclear.mono hle).cons_ne (Ne.symm heq)) ?_
    rintro ⟨e', u, hlookup, hlock, hclear⟩
    exact ⟨e', u, by rw [AList.lookup_insert_ne heq, hlookup], hlock, hclear.cons_ne (Ne.symm heq)⟩

-- An entry that an address gets, or keeps, without an attempt.
theorem Standing.touch (h : Standing table attempts time) (address : Address) :
    Standing (table.insert address ((table.lookup address).getD ⟨0, none⟩)) attempts time := by
  intro address'
  refine (h address').imp_right ?_
  rintro ⟨e, u, hlookup, hlock, hclear⟩
  refine ⟨e, u, ?_, hlock, hclear⟩
  by_cases heq : address' = address
  · subst heq
    rw [AList.lookup_insert, hlookup, Option.getD_some]
  · rw [AList.lookup_insert_ne heq, hlookup]

end Table

section Checks

variable {qt : Qt} {s : State} {line : RequestLine} {headers : Bytes} {clientIp : Address}
  {t : Clock} {r : Random} {time : Int}

structure Kept (s : State) (time : Int) : Prop where
  respected : Respected s.attempts
  standing : Standing s.failedAuth s.attempts time

theorem Kept.of {table : AList fun _ : Address => FailedAuthState} {attempts : List Attempt}
    (htable : s.failedAuth = table) (hattempts : s.attempts = attempts) (hrespected : Respected attempts)
    (hstanding : Standing table attempts time) : Kept s time :=
  ⟨by rwa [hattempts], by rwa [htable, hattempts]⟩

-- Two states with the same entries and attempts.
theorem Kept.same {s' : State} {time' : Int} (h : Kept s time) (hle : time ≤ time')
    (htable : s'.failedAuth = s.failedAuth) (hattempts : s'.attempts = s.attempts) :
    Kept s' time' :=
  .of htable hattempts h.respected (h.standing.mono hle)

structure Timely (now : Int) (t : Clock) : Prop where
  pair : now ≤ t.pairAt
  session : t.pairAt ≤ t.sessionAt
  evict : t.sessionAt ≤ t.evictAt
  check : t.evictAt ≤ t.checkAt
  failed : t.checkAt ≤ t.failedAt
  issued : t.failedAt ≤ t.issuedAt

instance (now : Int) (t : Clock) : Decidable (Timely now t) :=
  decidable_of_iff (now ≤ t.pairAt ∧ t.pairAt ≤ t.sessionAt ∧ t.sessionAt ≤ t.evictAt ∧
      t.evictAt ≤ t.checkAt ∧ t.checkAt ≤ t.failedAt ∧ t.failedAt ≤ t.issuedAt)
    ⟨fun ⟨hp, hs, he, hc, hf, hi⟩ => ⟨hp, hs, he, hc, hf, hi⟩,
      fun h => ⟨h.pair, h.session, h.evict, h.check, h.failed, h.issued⟩⟩

-- Credentials on the pairing way are right and do not come from an address that is locked.
def State.PairFair (qt : Qt) (s : State) (line : RequestLine) (clientIp : Address) (t : Clock) : Prop :=
  pairCredentials qt line ≠ none → s.RightPair qt line ∧
    ((s.failedAuth.lookup clientIp).getD ⟨0, none⟩).locked t.pairAt = false

-- A check finds the table within its bound, and counts a failure on top of all the earlier ones.
structure State.CheckFair (qt : Qt) (s : State) (headers : Bytes) (clientIp : Address) (t : Clock) :
    Prop where
  room : (dropExpired s.failedAuth t.evictAt).entries.length ≤ kFailedAuthMax
  counted : s.Open clientIp t → ¬ s.RightBasic qt headers → basicCredentials qt headers ≠ none →
    failures clientIp s.attempts ≤ (s.failedAuthOf clientIp t).attempts ∧
      (s.failedAuthOf clientIp t).attempts < 33

theorem kept_pair (h : Kept s time) (hle : time ≤ t.pairAt) (hfair : s.PairFair qt line clientIp t) :
    Kept (s.pair qt line clientIp t r).2.1 t.pairAt := by
  cases hpair : pairCredentials qt line with
  | none =>
      simp only [State.pair, hpair]
      exact h.same hle rfl rfl
  | some c =>
      obtain ⟨user, pass⟩ := c
      obtain ⟨⟨user', pass', hpair', huser, hverify⟩, hopen⟩ := hfair (by simp [hpair])
      obtain ⟨rfl, rfl⟩ := Prod.mk.inj (Option.some.inj (hpair.symm.trans hpair'))
      have huserOk : constantTimeEquals user (qt.toUtf8 s.user) = true := constantTimeEquals_iff.mpr huser
      have hclear := h.standing.clear hle hopen
      simp only [State.pair, hpair, huserOk, hverify, Bool.and_self, if_true]
      rw [upgradeLegacyHash_fst]
      refine ⟨⟨fun _ => hclear, by simp, h.respected⟩, ?_⟩
      intro address
      rcases h.standing address with hother | ⟨e, u, hlookup, hlock, hother⟩
      · by_cases heq : clientIp = address
        · subst heq
          exact .inl (hclear.cons_ok rfl)
        · exact .inl ((hother.mono hle).cons_ne heq)
      · by_cases heq : clientIp = address
        · subst heq
          exact .inl (hclear.cons_ok rfl)
        · exact .inr ⟨e, u, hlookup, hlock, hother.cons_ne heq⟩

theorem kept_fail {table : AList fun _ : Address => FailedAuthState} {attempts : List Attempt}
    {e : FailedAuthState} (hrespected : Respected attempts)
    (hstanding : Standing table attempts t.checkAt) (hclear : Clear clientIp t.checkAt attempts)
    (hle : t.checkAt ≤ t.failedAt) (hcount : failures clientIp attempts ≤ e.attempts)
    (hbound : e.attempts < 33) (htable : s.failedAuth = table.insert clientIp (e.fail t.failedAt))
    (hfailed : s.attempts = ⟨clientIp, true, false, t.checkAt, t.failedAt,
      if 5 ≤ (e.fail t.failedAt).attempts then some (e.fail t.failedAt).attempts else none⟩ ::
        attempts) : Kept s t.failedAt := by
  have hnext : (e.fail t.failedAt).attempts = e.attempts + 1 := by
    unfold FailedAuthState.fail
    dsimp only
    split_ifs
    · rfl
    · rfl
  refine .of htable hfailed ⟨fun _ => hclear, ?_, hrespected⟩ (hstanding.insert hle ?_)
  · intro n hn
    simp only [hnext] at hn
    split_ifs at hn
    · obtain rfl := Option.mem_some_iff.mp hn
      exact penalty_fits (by omega)
    · cases hn
  · by_cases hlock : 5 ≤ e.attempts + 1
    · right
      refine ⟨t.failedAt + penaltyMs (e.attempts + 1), ?_, fun _ _ _ => ?_, ?_⟩
      · simp only [FailedAuthState.fail, if_pos hlock]
        rw [penaltySec_eq (by omega)]
      · have hpenalty := penaltyMs_mono (Nat.succ_le_succ hcount)
        exact Int.add_le_add_left hpenalty _
      · have hnonneg := penaltyMs_mono (Nat.zero_le (e.attempts + 1))
        have hzero : penaltyMs 0 = 5000 := by decide
        exact hclear.mono (by omega)
    · left
      refine ⟨fun _ _ (hn : 5 ≤ failures clientIp attempts + 1) => ?_, hclear.mono hle⟩
      omega

theorem kept_checkAuth (h : Kept s time) (hevict : time ≤ t.evictAt) (hcheck : t.evictAt ≤ t.checkAt)
    (hfailed : t.checkAt ≤ t.failedAt) (hfair : s.CheckFair qt headers clientIp t) :
    Kept (s.checkAuth qt headers clientIp t r).2.1 t.failedAt := by
  have htable : Standing (evictExpiredFailedAuth s.failedAuth t.evictAt) s.attempts t.evictAt := by
    rw [evictExpiredFailedAuth_eq hfair.room]
    exact h.standing.dropExpired hevict
  have htouched := htable.touch clientIp
  cases hlocked : (s.failedAuthOf clientIp t).locked t.checkAt with
  | true =>
      simp only [State.checkAuth, hlocked, if_true]
      exact ⟨h.respected, htouched.mono (hcheck.trans hfailed)⟩
  | false =>
      have hclear := htable.clear hcheck hlocked
      cases hbasic : basicCredentials qt headers with
      | none =>
          simp only [State.checkAuth, hlocked, hbasic, Bool.false_eq_true, if_false]
          exact ⟨h.respected, htouched.mono (hcheck.trans hfailed)⟩
      | some c =>
          obtain ⟨user, pass⟩ := c
          cases hok : constantTimeEquals (qt.toUtf8 user) (qt.toUtf8 s.user) &&
              verify qt pass s.passwordHash with
          | true =>
              simp only [State.checkAuth, hlocked, hbasic, hok, Bool.false_eq_true, if_false, if_true]
              rw [upgradeLegacyHash_fst]
              refine ⟨⟨fun _ => hclear, by simp, h.respected⟩, ?_⟩
              exact (htouched.mono hcheck).insert hfailed (.inl ((hclear.mono hfailed).cons_ok rfl))
          | false =>
              have hwrong : ¬ s.RightBasic qt headers := by
                rintro ⟨user', pass', hbasic', huser, hpass⟩
                obtain ⟨rfl, rfl⟩ := Prod.mk.inj (Option.some.inj (hbasic.symm.trans hbasic'))
                rw [constantTimeEquals_iff.mpr huser, hpass] at hok
                cases hok
              obtain ⟨hcount, hbound⟩ := hfair.counted hlocked hwrong (by simp [hbasic])
              simp only [State.checkAuth, hlocked, hbasic, hok, Bool.false_eq_true, if_false]
              exact kept_fail h.respected (htouched.mono hcheck) hclear hfailed hcount hbound rfl rfl

-- The gates leave the last reading of the clock to the request.
theorem pair_now : (s.pair qt line clientIp t r).2.1.now = s.now := by
  unfold State.pair
  cases pairCredentials qt line with
  | none => rfl
  | some c =>
      dsimp only
      split_ifs
      · rw [upgradeLegacyHash_fst]
        rfl
      · rfl

theorem checkSession_now : (s.checkSession headers t).2.now = s.now := by
  obtain ⟨tokens, htokens⟩ : ∃ tokens, (s.checkSession headers t).2 =
      { s with sessionTokens := tokens } := checkSession_snd
  rw [htokens]

theorem checkAuth_now : (s.checkAuth qt headers clientIp t r).2.1.now = s.now := by
  cases hlocked : (s.failedAuthOf clientIp t).locked t.checkAt with
  | true => simp only [State.checkAuth, hlocked, if_true]
  | false =>
      cases hbasic : basicCredentials qt headers with
      | none => simp only [State.checkAuth, hlocked, hbasic, Bool.false_eq_true, if_false]
      | some c =>
          simp only [State.checkAuth, hlocked, hbasic, Bool.false_eq_true, if_false]
          split_ifs
          · rw [upgradeLegacyHash_fst]
            rfl
          · rfl
          · rfl

theorem gates_now : (s.handleAuthGates qt line headers clientIp t r).2.1.now = s.now := by
  have hpass : Passage qt s line headers clientIp t r
      (s.handleAuthGates qt line headers clientIp t r) := passage
  generalize s.handleAuthGates qt line headers clientIp t r = res at hpass ⊢
  cases hpass with
  | off => rfl
  | paired => exact pair_now
  | login _ _ hs₁ => exact checkAuth_now.trans (hs₁ ▸ pair_now)
  | live _ _ hs₁ => exact checkSession_now.trans (hs₁ ▸ pair_now)
  | basic _ _ hs₁ _ _ hs₂ => exact checkAuth_now.trans (hs₂ ▸ checkSession_now.trans (hs₁ ▸ pair_now))
  | loginRefused _ _ hs₁ => exact checkAuth_now.trans (hs₁ ▸ pair_now)
  | refused _ _ hs₁ _ _ hs₂ =>
      exact checkAuth_now.trans (hs₂ ▸ checkSession_now.trans (hs₁ ▸ pair_now))

-- A request that goes on to a check, past its pairing and its session.
def State.Checks (qt : Qt) (s : State) (line : RequestLine) (headers : Bytes) (t : Clock) : Prop :=
  pairCredentials qt line = none ∧ (isLogin line = true ∨ ¬ s.Live headers t)

-- Each way in keeps to the rule at this request.
structure State.Fair (qt : Qt) (s : State) (line : RequestLine) (headers : Bytes) (clientIp : Address)
    (t : Clock) : Prop where
  pair : s.PairFair qt line clientIp t
  check : s.Checks qt line headers t → s.CheckFair qt headers clientIp t

theorem pair_of_fair (hfair : s.PairFair qt line clientIp t)
    (h : (s.pair qt line clientIp t r).1 = false) :
    pairCredentials qt line = none ∧ (s.pair qt line clientIp t r).2.1 = s := by
  have hnone : pairCredentials qt line = none := by
    by_contra hsome
    exact not_rightPair h (hfair hsome).1
  refine ⟨hnone, ?_⟩
  simp only [State.pair, hnone]

theorem kept_issue (h : Kept s t.failedAt) (hle : t.failedAt ≤ t.issuedAt) :
    Kept (s.issueSessionCookie t r).1 t.issuedAt := h.same hle rfl rfl

theorem kept_gates (h : Kept s time) (htimely : Timely time t)
    (hfair : s.user ≠ [] → s.Fair qt line headers clientIp t) :
    Kept (s.handleAuthGates qt line headers clientIp t r).2.1 t.issuedAt := by
  obtain ⟨hp, hse, hev, hc, hf, hi⟩ := htimely
  have hpass : Passage qt s line headers clientIp t r
      (s.handleAuthGates qt line headers clientIp t r) := passage
  generalize s.handleAuthGates qt line headers clientIp t r = res at hpass ⊢
  -- No pairing happened: the state is as it was when the check begins.
  have hauth : ∀ (hs : s.Fair qt line headers clientIp t) (tokens : AList fun _ : Bytes => Int),
      s.Checks qt line headers t → Kept (State.checkAuth qt { s with sessionTokens := tokens }
        headers clientIp t r).2.1 t.failedAt := by
    intro hs tokens hchecks
    obtain ⟨hroom, hcounted⟩ := hs.check hchecks
    have hkept : Kept { s with sessionTokens := tokens } time := h.same le_rfl rfl rfl
    exact kept_checkAuth hkept (by omega) hc hf ⟨hroom, hcounted⟩
  obtain ⟨tokens, htokens⟩ : ∃ tokens, (s.checkSession headers t).2 =
      { s with sessionTokens := tokens } := checkSession_snd
  have hdead : (s.checkSession headers t).1 = false → ¬ s.Live headers t := by
    intro hlive hl
    rw [checkSession_iff.mpr hl] at hlive
    cases hlive
  cases hpass with
  | off => exact h.same (by omega) rfl rfl
  | paired huser => exact (kept_pair h hp (hfair huser).pair).same (by omega) rfl rfl
  | login huser hpair hs₁ hlogin =>
      obtain ⟨hnone, hsame⟩ := pair_of_fair (hfair huser).pair hpair
      obtain rfl := (hs₁.trans hsame).symm
      exact kept_issue (hauth (hfair huser) _ ⟨hnone, .inl hlogin⟩) hi
  | live huser hpair hs₁ =>
      obtain ⟨-, hsame⟩ := pair_of_fair (hfair huser).pair hpair
      obtain rfl := (hs₁.trans hsame).symm
      rw [htokens]
      exact h.same (by omega) rfl rfl
  | basic huser hpair hs₁ _ hlive hs₂ =>
      obtain ⟨hnone, hsame⟩ := pair_of_fair (hfair huser).pair hpair
      obtain rfl := (hs₁.trans hsame).symm
      rw [hs₂, htokens]
      exact (hauth (hfair huser) tokens ⟨hnone, .inr (hdead hlive)⟩).same hi rfl rfl
  | loginRefused huser hpair hs₁ hlogin =>
      obtain ⟨hnone, hsame⟩ := pair_of_fair (hfair huser).pair hpair
      obtain rfl := (hs₁.trans hsame).symm
      exact (hauth (hfair huser) _ ⟨hnone, .inl hlogin⟩).same hi rfl rfl
  | refused huser hpair hs₁ _ hlive hs₂ =>
      obtain ⟨hnone, hsame⟩ := pair_of_fair (hfair huser).pair hpair
      obtain rfl := (hs₁.trans hsame).symm
      rw [hs₂, htokens]
      exact (hauth (hfair huser) tokens ⟨hnone, .inr (hdead hlive)⟩).same hi rfl rfl

end Checks

section Runs

variable {qt : Qt}

-- The clock goes forward.
def State.Forward (s : State) : Event → Prop
  | .received _ _ t _ => Timely s.now t
  | _ => True

instance (s : State) : ∀ a, Decidable (s.Forward a)
  | .received _ _ t _ => inferInstanceAs (Decidable (Timely s.now t))
  | .setCredentials _ _ | .connected _ _ | .disconnected _ | .stopped => .isTrue trivial

-- And each request that is completed keeps to the rule.
structure Throttled (qt : Qt) (s : State) (a : Event) : Prop where
  forward : s.Forward a
  fair : ∀ q line, requestOf ⟨s, a, ([] : List Out)⟩ = some q → requestLineOf q.data = some line →
    s.user ≠ [] → s.Fair qt line (headersOf q.data) q.peer q.t

theorem kept_next {s s' : State} {a : Event} {out : List Out} (h : Kept s s.now)
    (hthrottled : Throttled qt s a) (hnext : s.next qt a = some (s', out)) : Kept s' s'.now := by
  cases a with
  | received socket bytes t r =>
      have htimely : Timely s.now t := hthrottled.forward
      have hle : s.now ≤ t.issuedAt := by
        obtain ⟨hp, hse, hev, hc, hf, hi⟩ := htimely
        omega
      obtain ⟨⟨peer, p⟩, hpending, heq⟩ := Option.map_eq_some_iff.mp hnext
      dsimp only at heq
      cases hread : readMore p bytes with
      | wait p' =>
          rw [hread] at heq
          obtain ⟨rfl, -⟩ := Prod.mk.inj heq
          exact h.same hle rfl rfl
      | refused p' status =>
          rw [hread] at heq
          obtain ⟨rfl, -⟩ := Prod.mk.inj heq
          exact h.same hle rfl rfl
      | complete p' data =>
          have hq : requestOf ⟨s, .received socket bytes t r, ([] : List Out)⟩ =
              some ⟨peer, data, t⟩ := by simp [requestOf, hpending, hread]
          rw [hread] at heq
          dsimp only [State.dispatch] at heq
          cases hline : requestLineOf data with
          | none =>
              rw [hline] at heq
              obtain ⟨rfl, -⟩ := Prod.mk.inj heq
              exact h.same hle rfl rfl
          | some line =>
              rw [hline] at heq
              dsimp only at heq
              have hkept : Kept ({ s with now := t.issuedAt }.setPending socket (some (peer, p'))) s.now :=
                h.same le_rfl rfl rfl
              have hfair : s.user ≠ [] → s.Fair qt line (headersOf data) peer t :=
                hthrottled.fair _ line hq hline
              have hgates : Kept (State.handleAuthGates qt
                  ({ s with now := t.issuedAt }.setPending socket (some (peer, p'))) line
                  (headersOf data) peer t r).2.1 t.issuedAt :=
                kept_gates hkept htimely fun huser => ⟨(hfair huser).pair, fun hchecks =>
                  ⟨((hfair huser).check hchecks).room, ((hfair huser).check hchecks).counted⟩⟩
              have hnow : (State.handleAuthGates qt
                  ({ s with now := t.issuedAt }.setPending socket (some (peer, p'))) line
                  (headersOf data) peer t r).2.1.now = t.issuedAt := gates_now
              replace hgates := hgates.same hnow.ge rfl rfl
              split_ifs at heq
              · obtain ⟨rfl, -⟩ := Prod.mk.inj heq
                exact hgates
              · obtain ⟨rfl, -⟩ := Prod.mk.inj heq
                exact hgates
  | setCredentials user passwordHash =>
      obtain ⟨rfl, -⟩ := Prod.mk.inj (Option.some.inj hnext)
      exact h.same le_rfl rfl rfl
  | connected socket peer =>
      rw [State.next] at hnext
      split_ifs at hnext
      obtain ⟨rfl, -⟩ := Prod.mk.inj (Option.some.inj hnext)
      exact h.same le_rfl rfl rfl
  | disconnected socket =>
      obtain ⟨rfl, -⟩ := Prod.mk.inj (Option.some.inj hnext)
      exact h.same le_rfl rfl rfl
  | stopped =>
      obtain ⟨rfl, -⟩ := Prod.mk.inj (Option.some.inj hnext)
      exact h.same le_rfl rfl rfl

theorem run_throttled {past : List (Reaction State Event Out)} {s : State}
    (hrun : (machine qt).Run (Throttled qt) past s) : Respected s.attempts := by
  have hinit : Kept init init.now := ⟨trivial, fun _ => .inl trivial⟩
  have hkept : Kept s s.now := Machine.Run.invariant (fun s => Kept s s.now) hinit
      (fun _ _ _ _ h hthrottled hnext => kept_next h hthrottled hnext) hrun
  exact hkept.respected

end Runs

section Sample

-- Wrong passwords on one connection each, at these times.
def guessesAt (times : List Int) : List Event := .setCredentials ['u'] sampleHash ::
  times.zipIdx.flatMap fun (ms, i) => requestOn i (basicRequest "dTp4") ms

-- Where no request pairs and each finds as many failures in its entry as there were.
def counts (qt : Qt) (s : State) (a : Event) : Bool :=
  match requestOf ⟨s, a, ([] : List Out)⟩ with
  | none => true
  | some q =>
      (requestLineOf q.data).all fun line => (pairCredentials qt line).isNone &&
        (dropExpired s.failedAuth q.t.evictAt).entries.length ≤ kFailedAuthMax &&
          failures q.peer s.attempts ≤ (s.failedAuthOf q.peer q.t).attempts &&
            (s.failedAuthOf q.peer q.t).attempts < 33

theorem throttled_of_counts {qt : Qt} {s : State} {a : Event}
    (h : s.Forward a ∧ counts qt s a = true) : Throttled qt s a := by
  obtain ⟨hforward, hcounts⟩ := h
  refine ⟨hforward, fun q line hq hline _ => ?_⟩
  simp only [counts, hq, hline, Option.all_some, Bool.and_eq_true, Option.isNone_iff_eq_none,
    decide_eq_true_eq] at hcounts
  obtain ⟨⟨⟨hnone, hroom⟩, hcounted⟩, hbound⟩ := hcounts
  exact ⟨fun hsome => absurd hnone hsome, fun _ => ⟨hroom, fun _ _ _ => ⟨hcounted, hbound⟩⟩⟩

theorem run_throttled_guesses : ∃ past s, (machine sampleQt).Run (Throttled sampleQt) past s ∧
    s.attempts.length = 5 ∧ Respected s.attempts := by
  obtain ⟨past, s, hrun, hlength⟩ : ∃ past s, (machine sampleQt).Run
      (fun s a => s.Forward a ∧ counts sampleQt s a = true) past s ∧ s.attempts.length = 5 :=
    Machine.exists_run (guessesAt [1000, 1000, 2000, 2000, 3000, 4000]) (by decide +kernel)
  have hthrottled : (machine sampleQt).Run (Throttled sampleQt) past s :=
    hrun.mono fun _ _ h => throttled_of_counts h
  exact ⟨past, s, hthrottled, hlength, run_throttled hthrottled⟩

-- The fifth failure closes the address for five seconds, and one second later a pairing from it has
-- its password verified.
theorem run_not_throttled : ∃ past s, (machine sampleQt).Run (fun s a => s.Forward a) past s ∧
    ¬ Respected s.attempts :=
  Machine.exists_run (guessesAt [1000, 1000, 1000, 1000, 1000] ++ requestOn 9 pairRequest 2000)
    (by decide +kernel)

end Sample

end BATorrent.WebServer
