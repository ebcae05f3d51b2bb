import BATorrent.Lib.Rows
import BATorrent.Services.Debrid

namespace BATorrent.Debrid

open Lib Machine

variable {Answer Link : Type}

section Purpose

def Call.isAdd : Call Link → Bool
  | .add _ => true
  | .info _ => false
  | .select _ => false
  | .link _ _ _ => false

def Request.continues (job : Nat) (r : Request Link) : Bool := r.job = job && !r.call.isAdd

-- How many of the timer and the requests that come after the first are there for the job that is live.
def underWay (s : State Link) : Nat :=
  match s.live with
  | none => 0
  | some job => s.polling.toNat + s.outstanding.countP (Request.continues job)

def Out.job? : Out → Option Nat
  | .errorOccurred _ => none
  | .failed job _ => some job
  | .streamReady job _ _ => some job

-- The jobs that something was reported for.
def reportedJobs (past : List (Reaction (State Link) (Event Answer) Out)) : List Nat :=
  past.flatMap fun r => r.out.filterMap Out.job?

variable (P : Provider Answer Link)

-- The transfer is what the service answered to the magnet of the job.
def Created (past : List (Reaction (State Link) (Event Answer) Out)) (job : Nat) (id : Text) : Prop :=
  ∃ r ∈ past, ∃ i answer magnet, r.event = .finished i answer ∧
    r.before.outstanding[i]? = some ⟨job, .add magnet⟩ ∧ P.created answer = .ok id

-- The link and the name are what it answered about the transfer.
def Offered (past : List (Reaction (State Link) (Event Answer) Out)) (job : Nat) (id : Text) (link : Link)
    (name : Text) : Prop :=
  ∃ r ∈ past, ∃ i answer, r.event = .finished i answer ∧ r.before.outstanding[i]? = some ⟨job, .info id⟩ ∧
    P.judge r.before.filesSelected r.before.jobName r.before.progress answer = (name, .link link)

-- What is reported is reported for the job that is live, and a stream is what the service made of its own
-- transfer.
def Reports (past : List (Reaction (State Link) (Event Answer) Out)) (r : Reaction (State Link) (Event Answer) Out) :
    Out → Prop
  | .errorOccurred _ => True
  | .failed job _ => r.before.live = some job
  | .streamReady job url name =>
      r.before.live = some job ∧
        ∃ i answer id link offered, Created P past job id ∧ Offered P past job id link offered ∧
          r.event = .finished i answer ∧ r.before.outstanding[i]? = some ⟨job, .link id link offered⟩ ∧
          P.unlock offered offered answer = .ok (url, name)

-- A cancelled stream stays cancelled.
structure StaysCancelled (past : List (Reaction (State Link) (Event Answer) Out)) (s : State Link) : Prop where
  once : (reportedJobs past).Nodup
  reports : eachStep (fun past r _ => ∀ out ∈ r.out, Reports P past r out) past s
  busy : ∀ t ∈ visited past s, t.busy = t.live.isSome
  alone : ∀ t ∈ visited past s, underWay t ≤ 1

-- A reply to a job that is not live makes no difference: there is no transfer, or it only starts the
-- timer that is running.
def Idle (s : State Link) (r : Request Link) (answer : Answer) : Prop :=
  match r.call with
  | .add _ => False
  | .info _ => s.jobId = [] ∨
      s.polling = true ∧ (P.judge s.filesSelected s.jobName s.progress answer).2.isAgain = true
  | .select _ => s.jobId = [] ∨ s.polling = true
  | .link _ _ _ => False

instance (s : State Link) (r : Request Link) (answer : Answer) : Decidable (Idle P s r answer) :=
  match r with
  | ⟨_, .add _⟩ => inferInstanceAs (Decidable False)
  | ⟨_, .info _⟩ => inferInstanceAs (Decidable (_ ∨ _ ∧ _))
  | ⟨_, .select _⟩ => inferInstanceAs (Decidable (_ ∨ _))
  | ⟨_, .link _ _ _⟩ => inferInstanceAs (Decidable False)

-- A reply comes to the job that is live, or makes no difference.
def InTime (s : State Link) : Event Answer → Prop
  | .setToken _ => True
  | .streamMagnet _ => True
  | .cancelStream => True
  | .timeout => True
  | .finished i answer => ∀ r ∈ s.outstanding[i]?, s.live = some r.job ∨ Idle P s r answer

instance (s : State Link) : (e : Event Answer) → Decidable (InTime P s e)
  | .setToken _ => inferInstanceAs (Decidable True)
  | .streamMagnet _ => inferInstanceAs (Decidable True)
  | .cancelStream => inferInstanceAs (Decidable True)
  | .timeout => inferInstanceAs (Decidable True)
  | .finished _ _ => inferInstanceAs (Decidable (∀ _ ∈ _, _))

end Purpose

section Invariant

-- What is asked for the job that is live, once there is a transfer.
def Call.Own (P : Provider Answer Link) (past : List (Reaction (State Link) (Event Answer) Out)) (s : State Link)
    (job : Nat) : Call Link → Prop
  | .add _ => False
  | .info id => id = s.jobId
  | .select _ => True
  | .link id asked name => id = s.jobId ∧ name = s.jobName ∧ Offered P past job id asked name

-- Where the job that is live is: its magnet is on the way, or there is a transfer.
inductive Stage (P : Provider Answer Link) (past : List (Reaction (State Link) (Event Answer) Out)) (s : State Link)
    (job : Nat) : Prop where
  | starting (hid : s.jobId = []) (hpolling : s.polling = false)
      (hone : s.outstanding.countP (fun r => r.job = job) = 1)
      (hadd : ∀ r ∈ s.outstanding, r.job = job → r.call.isAdd = true)
  | going (hid : s.jobId ≠ []) (howner : s.owner = job) (hcreated : Created P past job s.jobId)
      (hone : s.polling.toNat + s.outstanding.countP (Request.continues job) = 1)
      (hown : ∀ r ∈ s.outstanding, r.job = job → r.call.Own P past s job)

structure Sound (P : Provider Answer Link) (past : List (Reaction (State Link) (Event Answer) Out))
    (s : State Link) : Prop where
  busy : s.busy = s.live.isSome
  fresh : ∀ r ∈ s.outstanding, r.job < s.jobs
  live_lt : ∀ job, s.live = some job → job < s.jobs
  idle : s.live = none → s.jobId = [] ∧ s.polling = false
  stage : ∀ job, s.live = some job → Stage P past s job
  reported : ∀ job ∈ reportedJobs past, job < s.jobs ∧ s.live ≠ some job
  once : (reportedJobs past).Nodup

variable {P : Provider Answer Link} {past : List (Reaction (State Link) (Event Answer) Out)}
  {s s' : State Link} {e : Event Answer} {outs : List Out} {job : Nat}

theorem underWay_le (h : Sound P past s) : underWay s ≤ 1 := by
  unfold underWay
  cases hlive : s.live with
  | none => exact Nat.zero_le 1
  | some job =>
      cases h.stage job hlive with
      | starting hid hpolling hone hadd =>
          have hzero : s.outstanding.countP (Request.continues job) = 0 := by
            rw [List.countP_eq_zero]
            intro r hr hcontinues
            unfold Request.continues at hcontinues
            rw [Bool.and_eq_true, decide_eq_true_eq] at hcontinues
            rw [hadd r hr hcontinues.1] at hcontinues
            cases hcontinues.2
          dsimp only
          rw [hpolling, hzero]
          exact Nat.zero_le 1
      | going hid howner hcreated hone hown => exact hone.le

theorem created_cons {r : Reaction (State Link) (Event Answer) Out} {id : Text} (h : Created P past job id) :
    Created P (r :: past) job id := by
  obtain ⟨r', hr', hrest⟩ := h
  exact ⟨r', List.mem_cons_of_mem r hr', hrest⟩

theorem offered_cons {r : Reaction (State Link) (Event Answer) Out} {id name : Text} {link : Link}
    (h : Offered P past job id link name) : Offered P (r :: past) job id link name := by
  obtain ⟨r', hr', hrest⟩ := h
  exact ⟨r', List.mem_cons_of_mem r hr', hrest⟩

-- A step that reports nothing and lets the job be that is live.
theorem Sound.stay (h : Sound P past s) (houts : outs.filterMap Out.job? = []) (hbusy : s'.busy = s.busy)
    (hjobs : s'.jobs = s.jobs) (hlive : s'.live = s.live) (hsent : ∀ r ∈ s'.outstanding, r.job < s.jobs)
    (hidle : s.live = none → s'.jobId = [] ∧ s'.polling = false)
    (hstage : ∀ job, s.live = some job → Stage P (⟨s, e, outs⟩ :: past) s' job) :
    Sound P (⟨s, e, outs⟩ :: past) s' where
  busy := by rw [hbusy, hlive, h.busy]
  fresh := by rwa [hjobs]
  live_lt := by
    rw [hlive, hjobs]
    exact h.live_lt
  idle := by rwa [hlive]
  stage := by rwa [hlive]
  reported := by
    have heq : reportedJobs (⟨s, e, outs⟩ :: past) = reportedJobs past := by
      change outs.filterMap Out.job? ++ reportedJobs past = _
      rw [houts, List.nil_append]
    rw [heq, hlive, hjobs]
    exact h.reported
  once := by
    change (outs.filterMap Out.job? ++ reportedJobs past).Nodup
    rw [houts, List.nil_append]
    exact h.once

-- A step that reports for the job that is live, which is at its end then.
theorem Sound.report (h : Sound P past s) (hjob : s.live = some job) {out : Out} (hout : out.job? = some job)
    (hbusy : s'.busy = false) (hlive : s'.live = none) (hid : s'.jobId = []) (hpolling : s'.polling = false)
    (hjobs : s'.jobs = s.jobs) (hsent : ∀ r ∈ s'.outstanding, r ∈ s.outstanding) :
    Sound P (⟨s, e, [out]⟩ :: past) s' where
  busy := by
    rw [hbusy, hlive]
    rfl
  fresh r hr := by
    rw [hjobs]
    exact h.fresh r (hsent r hr)
  live_lt j hj := by
    rw [hlive] at hj
    cases hj
  idle _ := ⟨hid, hpolling⟩
  stage j hj := by
    rw [hlive] at hj
    cases hj
  reported j hj := by
    have hj' : j ∈ job :: reportedJobs past := by
      change j ∈ [out].filterMap Out.job? ++ reportedJobs past at hj
      rwa [List.filterMap_cons_some hout] at hj
    rw [hlive, hjobs]
    refine ⟨?_, nofun⟩
    rcases List.mem_cons.mp hj' with rfl | hpast
    · exact h.live_lt j hjob
    · exact (h.reported j hpast).1
  once := by
    change ([out].filterMap Out.job? ++ reportedJobs past).Nodup
    rw [List.filterMap_cons_some hout]
    exact List.nodup_cons.mpr ⟨fun hmem => (h.reported job hmem).2 hjob, h.once⟩

end Invariant

section Replies

variable {P : Provider Answer Link} {past : List (Reaction (State Link) (Event Answer) Out)}
  {s : State Link} {i job : Nat} {call : Call Link} {answer : Answer}

-- A step that keeps the invariant and reports only what it may.
def Good (P : Provider Answer Link) (past : List (Reaction (State Link) (Event Answer) Out)) (s : State Link)
    (e : Event Answer) (next : State Link × List Out) : Prop :=
  Sound P (⟨s, e, next.2⟩ :: past) next.1 ∧ ∀ out ∈ next.2, Reports P past ⟨s, e, next.2⟩ out

def State.without (s : State Link) (i : Nat) : State Link := { s with outstanding := s.outstanding.eraseIdx i }

theorem good_failJob {e : Event Answer} {t : State Link} (h : Sound P past s) (hlive : s.live = some job)
    (hsame : t.live = s.live ∧ t.jobs = s.jobs) (hsent : ∀ r ∈ t.outstanding, r ∈ s.outstanding) (msg : Text) :
    Good P past s e (t.failJob job msg) := by
  refine ⟨h.report hlive rfl rfl ?_ rfl rfl hsame.2 hsent, fun out hout => ?_⟩
  · change (if t.live = some job then none else t.live) = none
    rw [hsame.1, if_pos hlive]
  · rw [List.mem_singleton.mp hout]
    exact hlive

theorem mem_without {r : Request Link} (hr : r ∈ (s.without i).outstanding) : r ∈ s.outstanding :=
  List.mem_of_mem_eraseIdx hr

theorem countP_without (p : Request Link → Bool) {r : Request Link} (hi : s.outstanding[i]? = some r) :
    s.outstanding.countP p = (s.without i).outstanding.countP p + (p r).toNat := countP_eraseIdx p hi

theorem continues_self (hcall : call.isAdd = false) :
    Request.continues job (⟨job, call⟩ : Request Link) = true := by
  simp [Request.continues, hcall]

-- The reply to the magnet.
theorem good_add {magnet : Text} (h : Sound P past s) (hlive : s.live = some job)
    (hi : s.outstanding[i]? = some ⟨job, .add magnet⟩) :
    Good P past s (.finished i answer) ((s.without i).onAddMagnet P job answer) := by
  unfold State.onAddMagnet
  cases hcreated : P.created answer with
  | error msg => exact good_failJob (t := s.without i) h hlive ⟨rfl, rfl⟩ (fun r hr => mem_without hr) msg
  | ok id =>
      refine ⟨h.stay rfl rfl rfl rfl (fun r hr => h.fresh r (mem_without (i := i) hr)) ?_ ?_, nofun⟩
      · intro hnone
        rw [hlive] at hnone
        cases hnone
      · intro job' hjob'
        obtain rfl := Option.some.inj (hlive.symm.trans hjob')
        cases h.stage job hlive with
        | going hid howner hcr hone hown => exact (hown _ (List.mem_of_getElem? hi) rfl).elim
        | starting hid hpolling hone hadd =>
            have hcount := countP_without (fun r => r.job = job) hi
            have hzero : (s.without i).outstanding.countP (fun r => r.job = job) = 0 := by
              rw [hone, decide_eq_true rfl] at hcount
              change 1 = _ + 1 at hcount
              omega
            have hgone : ∀ r ∈ (s.without i).outstanding, r.job ≠ job := by
              intro r hr hjob
              exact List.countP_eq_zero.mp hzero r hr (decide_eq_true hjob)
            refine .going (P.created_ne_nil hcreated) rfl ?_ ?_ fun r hr hjob => absurd hjob (hgone r hr)
            · exact ⟨_, List.mem_cons_self, i, answer, magnet, rfl, hi, hcreated⟩
            · have hnone : (s.without i).outstanding.countP (Request.continues job) = 0 := by
                rw [List.countP_eq_zero]
                intro r hr hcontinues
                unfold Request.continues at hcontinues
                rw [Bool.and_eq_true, decide_eq_true_eq] at hcontinues
                exact hgone r hr hcontinues.1
              change true.toNat + (s.without i).outstanding.countP (Request.continues job) = 1
              rw [hnone]
              rfl

-- All that is asked for a job that has a transfer comes after the first request.
theorem none_of_continues {l : List (Request Link)} (hzero : l.countP (Request.continues job) = 0)
    (hown : ∀ r ∈ l, r.job = job → r.call.Own P past s job) : ∀ r ∈ l, r.job ≠ job := by
  intro r hr hjob
  refine List.countP_eq_zero.mp hzero r hr ?_
  unfold Request.continues
  rw [decide_eq_true hjob, Bool.true_and, Bool.not_eq_true']
  have hcall := hown r hr hjob
  cases hrcall : r.call with
  | add magnet =>
      rw [hrcall] at hcall
      exact hcall.elim
  | info id => rfl
  | select id => rfl
  | link id asked name => rfl

-- Where the one thing under way was a request and its reply has come.
theorem going_replied (h : Sound P past s) (hlive : s.live = some job) (hi : s.outstanding[i]? = some ⟨job, call⟩)
    (hcall : call.isAdd = false) :
    s.jobId ≠ [] ∧ s.owner = job ∧ Created P past job s.jobId ∧ s.polling = false ∧
      (s.without i).outstanding.countP (Request.continues job) = 0 ∧ (∀ r ∈ (s.without i).outstanding, r.job ≠ job) ∧
      call.Own P past s job := by
  have hr := List.mem_of_getElem? hi
  cases h.stage job hlive with
  | starting hid hpolling hone hadd =>
      have hadd' := hadd _ hr rfl
      rw [hcall] at hadd'
      cases hadd'
  | going hid howner hcreated hone hown =>
      have hcount := countP_without (Request.continues job) hi
      rw [continues_self hcall] at hcount
      change _ = _ + 1 at hcount
      have hpolling : s.polling = false := by
        cases hp : s.polling with
        | false => rfl
        | true =>
            rw [hp] at hone
            change 1 + _ = 1 at hone
            omega
      have hzero : (s.without i).outstanding.countP (Request.continues job) = 0 := by omega
      exact ⟨hid, howner, hcreated, hpolling, hzero,
        none_of_continues hzero fun r hr => hown r (mem_without hr), hown _ hr rfl⟩

-- The timer is started.
theorem stage_polling {r : Reaction (State Link) (Event Answer) Out} {t : State Link} (hid : t.jobId ≠ [])
    (howner : t.owner = job) (hcreated : Created P past job t.jobId) (hpolling : t.polling = true)
    (hzero : t.outstanding.countP (Request.continues job) = 0) (hnone : ∀ r ∈ t.outstanding, r.job ≠ job) :
    Stage P (r :: past) t job := by
  refine .going hid howner (created_cons hcreated) ?_ fun r hr hjob => absurd hjob (hnone r hr)
  rw [hpolling, hzero]
  rfl

-- A request is sent.
theorem stage_send {r : Reaction (State Link) (Event Answer) Out} {t : State Link} (hid : t.jobId ≠ [])
    (howner : t.owner = job) (hcreated : Created P past job t.jobId) (hpolling : t.polling = false)
    (hzero : t.outstanding.countP (Request.continues job) = 0) (hnone : ∀ r ∈ t.outstanding, r.job ≠ job)
    (hcall : call.isAdd = false) (hown : call.Own P (r :: past) t job) :
    Stage P (r :: past) (t.send job call) job := by
  refine .going hid howner (created_cons hcreated) ?_ fun r hr hjob => ?_
  · change t.polling.toNat + (t.outstanding ++ [(⟨job, call⟩ : Request Link)]).countP (Request.continues job) = 1
    rw [hpolling, List.countP_append, hzero, List.countP_singleton, continues_self hcall]
    rfl
  · rcases List.mem_append.mp hr with hr | hr
    · exact absurd hjob (hnone r hr)
    · rw [List.mem_singleton.mp hr]
      cases call with
      | add magnet => cases hcall
      | info id => exact hown
      | select id => trivial
      | link id asked name => exact hown

theorem good_select {id : Text} (h : Sound P past s) (hlive : s.live = some job)
    (hi : s.outstanding[i]? = some ⟨job, .select id⟩) :
    Good P past s (.finished i answer) (s.without i).onSelected := by
  obtain ⟨hid, howner, hcreated, hpolling, hzero, hnone, -⟩ := going_replied h hlive hi rfl
  unfold State.onSelected
  rw [if_neg (show (s.without i).jobId ≠ [] from hid)]
  refine ⟨h.stay rfl rfl rfl rfl (fun r hr => h.fresh r (mem_without (i := i) hr)) ?_ ?_, nofun⟩
  · intro hdead
    rw [hlive] at hdead
    cases hdead
  · intro job' hjob'
    obtain rfl := Option.some.inj (hlive.symm.trans hjob')
    exact stage_polling hid howner hcreated rfl hzero hnone

theorem good_link {id name : Text} {asked : Link} (h : Sound P past s) (hlive : s.live = some job)
    (hi : s.outstanding[i]? = some ⟨job, .link id asked name⟩) :
    Good P past s (.finished i answer) ((s.without i).onUnrestrict P job name answer) := by
  obtain ⟨hid, howner, hcreated, hpolling, hzero, hnone, rfl, rfl, hoffered⟩ := going_replied h hlive hi rfl
  unfold State.onUnrestrict
  cases hunlock : P.unlock s.jobName (s.without i).jobName answer with
  | error msg => exact good_failJob (t := s.without i) h hlive ⟨rfl, rfl⟩ (fun r hr => mem_without hr) msg
  | ok stream =>
      obtain ⟨url, title⟩ := stream
      have hends : (if s.live = some job then none else s.live) = none := if_pos hlive
      refine ⟨?_, fun out hout => ?_⟩
      · exact h.report hlive rfl rfl hends rfl hpolling rfl fun r hr => mem_without (i := i) hr
      · rw [List.mem_singleton.mp hout]
        exact ⟨hlive, i, answer, s.jobId, asked, s.jobName, hcreated, hoffered, rfl, hi, hunlock⟩

theorem good_info {id : Text} (h : Sound P past s) (hlive : s.live = some job)
    (hi : s.outstanding[i]? = some ⟨job, .info id⟩) :
    Good P past s (.finished i answer) ((s.without i).onJobInfo P job answer) := by
  obtain ⟨hid, howner, hcreated, hpolling, hzero, hnone, rfl⟩ := going_replied h hlive hi rfl
  have stay : ∀ t : State Link, t.busy = s.busy → t.jobs = s.jobs → t.live = s.live →
      (∀ r ∈ t.outstanding, r ∈ s.outstanding ∨ r.job = job) →
      Stage P (⟨s, .finished i answer, []⟩ :: past) t job → Good P past s (.finished i answer) (t, []) := by
    intro t hbusy hjobs hsame hsent hstage
    refine ⟨h.stay rfl hbusy hjobs hsame (fun r hr => ?_) (fun hdead => ?_) (fun job' hjob' => ?_), nofun⟩
    · rcases hsent r hr with hold | rfl
      · exact h.fresh r hold
      · exact h.live_lt _ hlive
    · rw [hlive] at hdead
      cases hdead
    · obtain rfl := Option.some.inj (hlive.symm.trans hjob')
      exact hstage
  unfold State.onJobInfo
  rw [if_neg (show (s.without i).jobId ≠ [] from hid)]
  cases hjudge : P.judge (s.without i).filesSelected (s.without i).jobName (s.without i).progress answer with
  | mk name verdict =>
      cases verdict with
      | again status =>
          cases status with
          | none =>
              refine stay _ rfl rfl rfl (fun r hr => .inl ?_) (stage_polling hid howner hcreated rfl hzero hnone)
              exact mem_without (i := i) hr
          | some line =>
              refine stay _ rfl rfl rfl (fun r hr => .inl ?_) (stage_polling hid howner hcreated rfl hzero hnone)
              exact mem_without (i := i) hr
      | select =>
          refine stay _ rfl rfl rfl (fun r hr => ?_) (stage_send hid howner hcreated hpolling hzero hnone rfl trivial)
          rcases List.mem_append.mp hr with hr | hr
          · exact .inl (mem_without (i := i) hr)
          · exact .inr (by rw [List.mem_singleton.mp hr])
      | link asked =>
          refine stay _ rfl rfl rfl (fun r hr => ?_) (stage_send hid howner hcreated hpolling hzero hnone rfl ?_)
          · rcases List.mem_append.mp hr with hr | hr
            · exact .inl (mem_without (i := i) hr)
            · exact .inr (by rw [List.mem_singleton.mp hr])
          · exact ⟨rfl, rfl, _, List.mem_cons_self, i, answer, rfl, hi, hjudge⟩
      | fail msg =>
          exact good_failJob (t := { s.without i with jobName := name }) h hlive ⟨rfl, rfl⟩
            (fun r hr => mem_without hr) msg

-- A reply to another job that changes no more than the name, which is set anew before it is used.
theorem sound_other {r : Request Link} {t : State Link} (h : Sound P past s) (hi : s.outstanding[i]? = some r)
    (hother : s.live ≠ some r.job) (hsent : t.outstanding = (s.without i).outstanding)
    (hsame : t.busy = s.busy ∧ t.jobs = s.jobs ∧ t.live = s.live) (hid : t.jobId = s.jobId)
    (howner : t.owner = s.owner) (hpolling : t.polling = s.polling)
    (hname : t.jobName = s.jobName ∨ s.polling = true) : Sound P (⟨s, .finished i answer, []⟩ :: past) t := by
  have hold : ∀ r ∈ t.outstanding, r ∈ s.outstanding := by
    rw [hsent]
    exact fun r hr => mem_without hr
  have hcount : ∀ p : Request Link → Bool, p r = false → t.outstanding.countP p = s.outstanding.countP p := by
    intro p hp
    rw [hsent, countP_without p hi, hp]
    rfl
  refine h.stay rfl hsame.1 hsame.2.1 hsame.2.2 (fun r hr => h.fresh r (hold r hr)) ?_ fun job hlive => ?_
  · rw [hid, hpolling]
    exact h.idle
  · have hne : r.job ≠ job := fun heq => hother (heq ▸ hlive)
    cases h.stage job hlive with
    | starting hid' hpolling' hone hadd =>
        refine .starting (hid.trans hid') (hpolling.trans hpolling') ?_ fun r hr => hadd r (hold r hr)
        rw [hcount _ (decide_eq_false hne)]
        exact hone
    | going hid' howner' hcreated hone hown =>
        have hsum : t.polling.toNat + t.outstanding.countP (Request.continues job) = 1 := by
          rw [hcount _ (by unfold Request.continues; rw [decide_eq_false hne]; rfl), hpolling]
          exact hone
        refine .going (by rwa [hid]) (howner.trans howner') (by rw [hid]; exact created_cons hcreated) hsum
          fun q hq hjob => ?_
        have hcall := hown q (hold q hq) hjob
        cases hqcall : q.call with
        | add magnet =>
            rw [hqcall] at hcall
            exact hcall.elim
        | info id =>
            rw [hqcall] at hcall
            exact hcall.trans hid.symm
        | select id => trivial
        | link id asked name =>
            rw [hqcall] at hcall
            obtain ⟨hid'', hname', hoffered⟩ := hcall
            refine ⟨hid''.trans hid.symm, ?_, offered_cons hoffered⟩
            rcases hname with hname | hrunning
            · exact hname'.trans hname.symm
            · -- With the timer running no link is asked for.
              rw [hpolling, hrunning] at hsum
              change 1 + _ = 1 at hsum
              have hzero : t.outstanding.countP (Request.continues job) = 0 := by omega
              refine absurd ?_ (List.countP_eq_zero.mp hzero q hq)
              unfold Request.continues
              rw [hqcall, decide_eq_true hjob]
              rfl

theorem good_idle {r : Request Link} (h : Sound P past s) (hi : s.outstanding[i]? = some r)
    (hother : s.live ≠ some r.job) (hidle : Idle P s r answer) :
    Good P past s (.finished i answer) ((s.without i).onReply P r answer) := by
  have unchanged : Good P past s (.finished i answer) (s.without i, []) :=
    ⟨sound_other h hi hother rfl ⟨rfl, rfl, rfl⟩ rfl rfl rfl (.inl rfl), nofun⟩
  unfold Idle at hidle
  unfold State.onReply
  cases hcall : r.call with
  | add magnet =>
      rw [hcall] at hidle
      exact hidle.elim
  | link id asked name =>
      rw [hcall] at hidle
      exact hidle.elim
  | select id =>
      rw [hcall] at hidle
      dsimp only at hidle ⊢
      unfold State.onSelected
      by_cases hid : (s.without i).jobId = []
      · rw [if_pos hid]
        exact unchanged
      · rw [if_neg hid]
        have hpolling := hidle.resolve_left hid
        exact ⟨sound_other h hi hother rfl ⟨rfl, rfl, rfl⟩ rfl rfl hpolling.symm (.inl rfl), nofun⟩
  | info id =>
      rw [hcall] at hidle
      dsimp only at hidle ⊢
      unfold State.onJobInfo
      by_cases hid : (s.without i).jobId = []
      · rw [if_pos hid]
        exact unchanged
      · rw [if_neg hid]
        obtain ⟨hpolling, hagain⟩ := hidle.resolve_left hid
        change (P.judge (s.without i).filesSelected (s.without i).jobName (s.without i).progress answer).2.isAgain = true
          at hagain
        cases hjudge : P.judge (s.without i).filesSelected (s.without i).jobName (s.without i).progress answer with
        | mk name verdict =>
            rw [hjudge] at hagain
            cases verdict with
            | again status =>
                cases status with
                | none =>
                    exact ⟨sound_other h hi hother rfl ⟨rfl, rfl, rfl⟩ rfl rfl hpolling.symm (.inr hpolling), nofun⟩
                | some line =>
                    exact ⟨sound_other h hi hother rfl ⟨rfl, rfl, rfl⟩ rfl rfl hpolling.symm (.inr hpolling), nofun⟩
            | _ => cases hagain

theorem good_reply {r : Request Link} (h : Sound P past s) (hi : s.outstanding[i]? = some r)
    (hintime : s.live = some r.job ∨ Idle P s r answer) :
    Good P past s (.finished i answer) ((s.without i).onReply P r answer) := by
  by_cases hlive : s.live = some r.job
  · obtain ⟨job, call⟩ := r
    cases call with
    | add magnet => exact good_add h hlive hi
    | info id => exact good_info h hlive hi
    | select id => exact good_select h hlive hi
    | link id asked name => exact good_link h hlive hi
  · exact good_idle h hi hlive (hintime.resolve_left hlive)

end Replies

section Calls

variable {P : Provider Answer Link} {past : List (Reaction (State Link) (Event Answer) Out)} {s s' : State Link}

theorem stage_same {r : Reaction (State Link) (Event Answer) Out} {t : State Link} {job : Nat}
    (h : Stage P past s job) (hsent : t.outstanding = s.outstanding)
    (hid : t.jobId = s.jobId) (howner : t.owner = s.owner) (hpolling : t.polling = s.polling)
    (hname : t.jobName = s.jobName) : Stage P (r :: past) t job := by
  cases h with
  | starting hid' hpolling' hone hadd =>
      exact .starting (hid.trans hid') (hpolling.trans hpolling') (by rwa [hsent]) (by rwa [hsent])
  | going hid' howner' hcreated hone hown =>
      refine .going (by rwa [hid]) (howner.trans howner') (by rw [hid]; exact created_cons hcreated)
        (by rwa [hsent, hpolling]) fun q hq hjob => ?_
      rw [hsent] at hq
      have hcall := hown q hq hjob
      cases hqcall : q.call with
      | add magnet =>
          rw [hqcall] at hcall
          exact hcall.elim
      | info id =>
          rw [hqcall] at hcall
          exact hcall.trans hid.symm
      | select id => trivial
      | link id asked name =>
          rw [hqcall] at hcall
          exact ⟨hcall.1.trans hid.symm, hcall.2.1.trans hname.symm, offered_cons hcall.2.2⟩

theorem good_setToken (h : Sound P past s) (token : Text) :
    Good P past s (.setToken token) ({ s with token := token }, []) :=
  ⟨h.stay rfl rfl rfl rfl h.fresh h.idle fun job hlive => stage_same (h.stage job hlive) rfl rfl rfl rfl rfl, nofun⟩

theorem good_errorOccurred {e : Event Answer} (h : Sound P past s) (msg : Text) :
    Good P past s e (s, [.errorOccurred msg]) := by
  refine ⟨h.stay rfl rfl rfl rfl h.fresh h.idle fun job hlive => ?_, fun out hout => ?_⟩
  · exact stage_same (h.stage job hlive) rfl rfl rfl rfl rfl
  · rw [List.mem_singleton.mp hout]
    trivial

theorem good_streamMagnet (h : Sound P past s) (magnet : Text) :
    Good P past s (.streamMagnet magnet) (s.streamMagnet P magnet) := by
  unfold State.streamMagnet
  split_ifs with htoken hbusy
  · exact good_errorOccurred h P.noToken
  · exact good_errorOccurred h P.inProgress
  · have hidle : s.live = none := by
      rw [h.busy] at hbusy
      simpa using hbusy
    have hnew : ∀ r ∈ s.outstanding, r.job ≠ s.jobs := fun r hr => (h.fresh r hr).ne
    refine ⟨⟨rfl, ?_, ?_, nofun, ?_, ?_, h.once⟩, nofun⟩
    · intro r hr
      rcases List.mem_append.mp hr with hr | hr
      · exact Nat.lt_succ_of_lt (h.fresh r hr)
      · rw [List.mem_singleton.mp hr]
        exact Nat.lt_succ_self s.jobs
    · rintro job hjob
      obtain rfl := Option.some.inj hjob
      exact Nat.lt_succ_self s.jobs
    · rintro job hjob
      obtain rfl := Option.some.inj hjob
      refine .starting rfl (h.idle hidle).2 ?_ fun r hr hjob => ?_
      · change (s.outstanding ++ [(⟨s.jobs, .add magnet⟩ : Request Link)]).countP (fun r => r.job = s.jobs) = 1
        rw [List.countP_append, List.countP_eq_zero.mpr fun r hr => by simpa using hnew r hr,
          List.countP_singleton, if_pos (decide_eq_true rfl)]
      · rcases List.mem_append.mp hr with hr | hr
        · exact absurd hjob (hnew r hr)
        · rw [List.mem_singleton.mp hr]
          rfl
    · intro job hjob
      have hlt := (h.reported job hjob).1
      exact ⟨Nat.lt_succ_of_lt hlt, fun hlive => hlt.ne' (Option.some.inj hlive)⟩

theorem good_cancelStream (h : Sound P past s) : Good P past s .cancelStream (s.cancelStream, []) :=
  ⟨⟨rfl, h.fresh, nofun, fun _ => ⟨rfl, rfl⟩, nofun, fun job hjob => ⟨(h.reported job hjob).1, nofun⟩, h.once⟩, nofun⟩

theorem good_pollJob (h : Sound P past s) (hpolling : s.polling = true) :
    Good P past s .timeout ({ s with polling := false }.pollJob P) := by
  obtain ⟨job, hlive⟩ : ∃ job, s.live = some job := by
    cases hlive : s.live with
    | none =>
        have hstopped := (h.idle hlive).2
        rw [hpolling] at hstopped
        cases hstopped
    | some job => exact ⟨job, rfl⟩
  cases h.stage job hlive with
  | starting hid hstopped hone hadd =>
      rw [hpolling] at hstopped
      cases hstopped
  | going hid howner hcreated hone hown =>
      unfold State.pollJob
      rw [if_neg (show ({ s with polling := false } : State Link).jobId ≠ [] from hid)]
      dsimp only
      subst howner
      split_ifs with htries
      · exact good_failJob (t := { s with polling := false, pollTries := s.pollTries + 1 }) h hlive ⟨rfl, rfl⟩
          (fun r hr => hr) P.tooLong
      · have hzero : s.outstanding.countP (Request.continues s.owner) = 0 := by
          rw [hpolling] at hone
          change 1 + _ = 1 at hone
          omega
        refine ⟨h.stay rfl rfl rfl rfl (fun r hr => ?_) (fun hdead => ?_) (fun job' hjob' => ?_), nofun⟩
        · rcases List.mem_append.mp hr with hr | hr
          · exact h.fresh r hr
          · rw [List.mem_singleton.mp hr]
            exact h.live_lt s.owner hlive
        · rw [hlive] at hdead
          cases hdead
        · obtain rfl := Option.some.inj (hlive.symm.trans hjob')
          exact stage_send hid rfl hcreated rfl hzero (none_of_continues hzero hown) rfl rfl

end Calls

section Runs

variable {P : Provider Answer Link} {past : List (Reaction (State Link) (Event Answer) Out)} {s : State Link}

theorem sound_init : Sound P [] (machine P).init :=
  ⟨rfl, nofun, nofun, fun _ => ⟨rfl, rfl⟩, nofun, nofun, List.nodup_nil⟩

theorem good_next {e : Event Answer} {s' : State Link} {outs : List Out} (h : Sound P past s) (hintime : InTime P s e)
    (hnext : s.next P e = some (s', outs)) : Good P past s e (s', outs) := by
  cases e with
  | setToken token => exact Option.some.inj hnext ▸ good_setToken h token
  | streamMagnet magnet => exact Option.some.inj hnext ▸ good_streamMagnet h magnet
  | cancelStream => exact Option.some.inj hnext ▸ good_cancelStream h
  | timeout =>
      unfold State.next at hnext
      split_ifs at hnext with hpolling
      exact Option.some.inj hnext ▸ good_pollJob h hpolling
  | finished i answer =>
      obtain ⟨r, hi, hreply⟩ := Option.map_eq_some_iff.mp hnext
      exact hreply ▸ good_reply h hi (hintime r hi)

theorem run_inTime (hrun : (machine P).Run (InTime P) past s) : Sound P past s ∧ StaysCancelled P past s := by
  induction hrun with
  | init =>
      exact ⟨sound_init, List.nodup_nil, trivial, fun t ht => List.mem_singleton.mp ht ▸ rfl,
        fun t ht => List.mem_singleton.mp ht ▸ underWay_le sound_init⟩
  | step hrun hintime hnext ih =>
      obtain ⟨hsound, -, hreports, hbusy, halone⟩ := ih
      obtain ⟨hsound', hreport⟩ := good_next hsound hintime hnext
      exact ⟨hsound', hsound'.once, ⟨hreport, hreports⟩,
        List.forall_mem_cons.mpr ⟨hsound'.busy, hbusy⟩, List.forall_mem_cons.mpr ⟨underWay_le hsound', halone⟩⟩

-- For both clients: where each reply comes to the job that is live, or makes no difference, a cancelled
-- stream stays cancelled.
theorem debrid_stays_cancelled (toLower : Text → Text) :
    (∀ past s, (machine (RealDebridClient.provider toLower)).Run (InTime (RealDebridClient.provider toLower)) past s →
      StaysCancelled (RealDebridClient.provider toLower) past s) ∧
    ∀ past s, (machine (TorBoxClient.provider toLower)).Run (InTime (TorBoxClient.provider toLower)) past s →
      StaysCancelled (TorBoxClient.provider toLower) past s :=
  ⟨fun _ _ hrun => (run_inTime hrun).2, fun _ _ hrun => (run_inTime hrun).2⟩

def onlyFile : RealDebridBody where
  id := "A1".toList
  status := "downloaded".toList
  filename := some "film.mkv".toList
  links := ["https://rd/1".toList]
  files := [⟨1, 700, "/film.mkv".toList⟩]
  progress := 100
  download := "https://cdn/1".toList

-- A film that is there already, up to the request for its link.
def realDebridFilm : List (Event RealDebridAnswer) :=
  [.setToken "t".toList, .streamMagnet "magnet:a".toList, .finished 0 (some onlyFile), .timeout, .finished 0 (some onlyFile)]

def Opens (url name : Text) (r : State Link × List Out) : Prop := r.2 = [.streamReady 0 url name]

instance (url name : Text) (r : State Link × List Out) : Decidable (Opens url name r) :=
  inferInstanceAs (Decidable (r.2 = _))

theorem debrid_stays_cancelled_film :
    ∃ past s, (machine (RealDebridClient.provider id)).Run (InTime (RealDebridClient.provider id)) past s ∧
      log past = [.streamReady 0 "https://cdn/1".toList "film.mkv".toList] ∧
        StaysCancelled (RealDebridClient.provider id) past s := by
  obtain ⟨past, s, hrun, hlog⟩ :
      ∃ past s, (machine (RealDebridClient.provider id)).Run (InTime (RealDebridClient.provider id)) past s ∧
        Opens "https://cdn/1".toList "film.mkv".toList (s, log past) := exists_run_log
    (realDebridFilm ++ [.finished 0 (some onlyFile)]) (by decide +kernel)
  exact ⟨past, s, hrun, hlog, (debrid_stays_cancelled id).1 past s hrun⟩

def onlyTorrent : TorBoxAnswer where
  error := false
  success := true
  detail := []
  data := some ⟨.inr 7, "film".toList, true, true, [⟨3, 700, "film.mkv".toList⟩], "cached".toList, 100⟩
  url := "https://cdn/7/3".toList

def torBoxFilm : List (Event TorBoxAnswer) :=
  [.setToken "t".toList, .streamMagnet "magnet:a".toList, .finished 0 onlyTorrent, .timeout, .finished 0 onlyTorrent]

-- A stream was cancelled while its link was asked for.
def Cancelled (transfer name : Text) (asked : Link) (s : State Link) : Prop :=
  s.live = none ∧ s.jobName = name ∧ s.outstanding[0]? = some ⟨0, .link transfer asked name⟩

instance [DecidableEq Link] (transfer name : Text) (asked : Link) (s : State Link) :
    Decidable (Cancelled transfer name asked s) := inferInstanceAs (Decidable (_ ∧ _ ∧ _))

-- It opens when the link comes.
theorem not_staysCancelled {transfer name url title : Text} {asked : Link} {answer : Answer}
    (h : ∃ past s, (machine P).Run (fun _ _ => True) past s ∧ Cancelled transfer name asked s)
    (hunlock : P.unlock name name answer = .ok (url, title)) :
    ¬ ∀ past s, (machine P).Run (fun _ _ => True) past s → StaysCancelled P past s := by
  obtain ⟨past, s, hrun, hlive, rfl, hi⟩ := h
  intro hall
  obtain ⟨t, hreply⟩ : ∃ t, (s.without 0).onUnrestrict P 0 s.jobName answer = (t, [.streamReady 0 url title]) := by
    unfold State.onUnrestrict
    rw [show (s.without 0).jobName = s.jobName from rfl, hunlock]
    exact ⟨_, rfl⟩
  have hnext : (machine P).next s (.finished 0 answer) = some (t, [.streamReady 0 url title]) := by
    change (s.outstanding[0]?).map (fun r => (s.without 0).onReply P r answer) = _
    rw [hi]
    exact congrArg some hreply
  have hreports := (hall _ _ (hrun.extend _ trivial hnext)).reports.1
  have howner : s.live = some 0 := (hreports _ List.mem_cons_self).1
  rw [hlive] at howner
  cases howner

-- The film is cancelled while its link is asked for, and opens all the same.
theorem not_stays_cancelled :
    (¬ ∀ past s, (machine (RealDebridClient.provider id)).Run (fun _ _ => True) past s →
      StaysCancelled (RealDebridClient.provider id) past s) ∧
    ¬ ∀ past s, (machine (TorBoxClient.provider id)).Run (fun _ _ => True) past s →
      StaysCancelled (TorBoxClient.provider id) past s := by
  constructor
  · have h : ∃ past s, (machine (RealDebridClient.provider id)).Run (fun _ _ => True) past s ∧
        Cancelled "A1".toList "film.mkv".toList "https://rd/1".toList s :=
      exists_run (realDebridFilm ++ [.cancelStream]) (by decide +kernel)
    exact not_staysCancelled h (show (RealDebridClient.provider id).unlock _ _ (some onlyFile) = .ok _ from rfl)
  · have h : ∃ past s, (machine (TorBoxClient.provider id)).Run (fun _ _ => True) past s ∧
        Cancelled "7".toList "film.mkv".toList 3 s :=
      exists_run (torBoxFilm ++ [.cancelStream]) (by decide +kernel)
    exact not_staysCancelled h (show (TorBoxClient.provider id).unlock _ _ onlyTorrent = .ok _ from rfl)

end Runs

end BATorrent.Debrid
