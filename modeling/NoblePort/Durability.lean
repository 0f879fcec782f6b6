import NoblePort.AtMostOnce
import NoblePort.Ancestry
import NoblePort.Deployed

/-!
# What a crash leaves

A process can stop at any await. What is on the file then is the state of the
system at an earlier moment, with everything a caller was told is done.
-/
namespace NoblePort.Durability

open Coroutine NoblePort.Values NoblePort.Store NoblePort.Connection NoblePort.ThreadState NoblePort.Records
open NoblePort.Runtime NoblePort.System NoblePort.Drivers NoblePort.Deployed

variable {ι : Type} [DecidableEq ι] {bus : EventBus} {ops : ι → Operation} {file : World}
  {s' : Deployment ι} {s : Stack ι}

/-- The moment whose tables are on the file, on the way to the present. -/
theorem moment (h : Drivers.Reach (deploy bus ops file) s') :
    ∃ s₁ s, System.Reach Anyhow (start ops file) s₁ ∧ System.Reach Anyhow s₁ s ∧
      (simulation bus file).Related s' s ∧ s'.world.db.committed = s₁.world.tables ∧
      ∀ x ∈ s.log, Acknowledged x.2 → x ∈ s₁.log := by
  obtain ⟨s, hs, hrelated⟩ := (related_boot bus ops file).reach h
  obtain ⟨old, new, hlog, hcommitted, hnew⟩ := hrelated.shared.durable
  have hlog' : s.log = old ++ new := hlog
  obtain ⟨s₁, h₁, h₂, rfl⟩ := Pool.Reach.at_prefix hs rfl hlog'
  refine ⟨s₁, s, h₁, h₂, hrelated, ?_, fun x hx hack => ?_⟩
  · have hworld : s₁.world = replay file s₁.log := h₁.world_eq rfl
    rw [hcommitted, hworld]
  · rw [hlog'] at hx
    exact (List.mem_append.mp hx).resolve_right fun hx => hnew x hx hack

/-- At any moment of any run the file holds the tables of an earlier moment of
the run that is mirrored, and every statement that a caller was told is done was
done by then. -/
theorem crash_consistent (bus : EventBus) (ops : ι → Operation) (file : World) (s' : Deployment ι)
    (h : Drivers.Reach (deploy bus ops file) s') :
    ∃ s₁ s, System.Reach Anyhow (start ops file) s₁ ∧ System.Reach Anyhow s₁ s ∧ Mirrors bus file s' s ∧
      s'.world.db.committed = s₁.world.tables ∧ ∀ x ∈ s.log, Acknowledged x.2 → x ∈ s₁.log := by
  obtain ⟨s₁, s, h₁, h₂, hrelated, hcommitted, hack⟩ := moment h
  exact ⟨s₁, s, h₁, h₂, mirrors_of_related hrelated, hcommitted, hack⟩

def lostKill : Fin 1 → Operation := fun _ => .requestKill .sqlite "t" "now"

/-- A kill that is cancelled in its commit. -/
theorem lostKill_run : ∃ s', Drivers.Reach (deploy .null lostKill World.empty) s' ∧
    s'.world.db.committed.agentThreadState.length = 0 ∧
    s'.world.db.working.agentThreadState.length = 1 ∧ s'.world.lockedBy.isNone :=
  Pool.Reach.exists_of_exec drivers Unforced (deploy .null lostKill World.empty)
    (List.replicate 12 (0, smooth) ++ [(0, { fault := some (.cancelled, false) }), (0, smooth)]) (by decide)

/-- The connection sees that kill and the file does not. -/
theorem crash_consistent_lostKill : ∃ (s' : Deployment (Fin 1)) (s₁ s : Stack (Fin 1)),
    Drivers.Reach (deploy .null lostKill World.empty) s' ∧ System.Reach Anyhow s₁ s ∧
    s'.world.db.committed = s₁.world.tables ∧ s'.world.db.working = s.world.tables ∧
    s₁.world.tables.agentThreadState.length = 0 ∧
    s.world.tables.agentThreadState.length = 1 := by
  obtain ⟨s', h, hold, hnew, hfree⟩ := lostKill_run
  obtain ⟨s₁, s, _, h₂, hmirrors, hcommitted, _⟩ := crash_consistent .null lostKill World.empty s' h
  have hvisible := hmirrors.visible (Option.isNone_iff_eq_none.mp hfree)
  rw [hcommitted] at hold
  rw [hvisible] at hnew
  exact ⟨s', s₁, s, h, h₂, hcommitted, hvisible, hold, hnew⟩

/-- A row that was put in is there from then on. -/
theorem row_kept {cond : Stack ι → ι → Choice → Prop} (h : System.Reach cond (start ops file) s)
    {x : ι × Answered} (hx : x ∈ s.log) {jsonb : Bool} {row : AuditRow}
    (hop : x.2.op = .execute (.insertAuditLog jsonb row)) (hok : x.2.failed = false) :
    row ∈ s.world.auditLog := by
  induction h with
  | start => cases hx
  | @step s s' i c h hc hs ih =>
    obtain ⟨op, k, _, hworld, _, hlog⟩ := Pool.step_cases interp hs
    rw [hworld]
    rw [hlog] at hx
    rcases List.mem_append.mp hx with hx | hx
    · exact (AtMostOnce.auditLog_settle _ _).subset (ih hx)
    · rw [List.mem_singleton.mp hx] at hop hok
      have hop' : op = .execute (.insertAuditLog jsonb row) := hop
      subst hop'
      rw [Interp.settle, if_pos (landed_of_not_failed hok)]
      exact List.mem_append_right _ (List.mem_singleton_self _)

/-- The audit row of the invocation is on the file, and spells its payload. -/
def OnFile (ops : ι → Operation) (disk : World) (i : ι) : Prop :=
  ∃ sup req d payload, ops i = .invoke sup req d ∧ dumps (Supervisor.auditPayload req d) = .ok payload ∧
    AuditFirst.auditRow req d payload ∈ disk.auditLog

/-- The calls with which the agent shows itself outside the database. -/
def outside : Op → Bool
  | .publish _ _ | .stepFn _ => true
  | _ => false

def outsideContract (op : Operation) : Contract Op Op.Resp Exc Unit where
  observe _ _ := ()
  rely _ _ := True
  guarantee _ call := outside call = true → ∃ sup req d, op = .invoke sup req d

theorem keeps_call {op : Operation} {call : Op} (h : outside call = false) :
    (outsideContract op).Keeps (fun _ => True) (.call call) :=
  .call (fun _ _ hout => absurd hout (by rw [h]; nofun)) fun _ _ _ _ _ => trivial

theorem keeps_upsert (op : Operation) (db : Dialect) (t status : String) (killed : Option Bool)
    (event : Option String) (now : String) :
    (outsideContract op).Keeps (fun _ => True) (upsert db t status killed event now) :=
  Invocation.keeps_upsert _ _ _ _ _ _ (keeps_call rfl) fun _ _ => keeps_call rfl

theorem wp_outside (op : Operation) : (outsideContract op).wp op.program (fun _ _ => True) () := by
  cases op with
  | invoke sup req d => exact Contract.wp_of_guarantee _ (fun _ _ _ => ⟨sup, req, d, rfl⟩) _ _
  | requestKill db t now =>
    exact (Contract.Keeps.bind (Invocation.keeps_requestKill (keeps_call rfl) (keeps_upsert ..))
      fun _ => .ret _).wp () trivial
  | setThreadStatus db t status event now =>
    exact (Contract.Keeps.bind (keeps_upsert ..) fun _ => .ret _).wp () trivial

/-- Only an invocation publishes or steps. -/
theorem invoke_of_outside {cond : Stack ι → ι → Choice → Prop} (h : System.Reach cond (start ops file) s)
    {x : ι × Answered} (hx : x ∈ s.log) (hout : outside x.2.op = true) :
    ∃ sup req d, ops x.1 = .invoke sup req d := by
  obtain ⟨pre, post, htr⟩ := List.append_of_mem (Pool.mem_traceOf.mpr hx)
  exact h.guarantee_logged rfl (wp_outside (ops x.1)) (Contract.relied_of_forall _ fun _ _ _ => trivial)
    htr hout

/-- Whoever has published or stepped has its audit row on the file. -/
theorem onFile_of_outside {s₁ : Stack ι} (h₁ : System.Reach Anyhow (start ops file) s₁)
    (h : System.Reach Anyhow s₁ s) (hack : ∀ x ∈ s.log, Acknowledged x.2 → x ∈ s₁.log)
    {x : ι × Answered} (hx : x ∈ s.log) (hout : outside x.2.op = true) : OnFile ops s₁.world.tables x.1 := by
  obtain ⟨sup, req, d, hi⟩ := invoke_of_outside (h₁.trans h) hx hout
  have hacts : AtMostOnce.Acts s x.1 := by
    refine .inl ⟨x.2, Pool.mem_traceOf.mpr hx, ?_⟩
    cases hop : x.2.op <;> rw [hop] at hout <;> first | rfl | cases hout
  obtain ⟨payload, e, hpayload, he, hok, hop⟩ := AtMostOnce.row_of_acts (h₁.trans h) hi hacts
  exact ⟨sup, req, d, payload, hi, hpayload, row_kept h₁ (hack _ he ⟨hok, _, hop⟩) hop hok⟩

theorem outside_of_event {e : Answered} {event : Event} (h : event ∈ Requests.eventsBy e) :
    outside e.op = true := by
  obtain ⟨op, result, landed⟩ := e
  cases op with
  | publish channel event => rfl
  | execute st => cases st <;> simp [Requests.eventsBy] at h
  | _ => simp [Requests.eventsBy] at h

theorem exists_of_forall₂ {A B : Type} {R : A → B → Prop} {as : List A} {bs : List B}
    (h : List.Forall₂ R as bs) {a : A} (ha : a ∈ as) : ∃ b ∈ bs, R a b := by
  induction h with
  | nil => cases ha
  | @cons a' b as bs hab _ ih =>
    rcases List.mem_cons.mp ha with rfl | ha
    · exact ⟨b, List.mem_cons_self .., hab⟩
    · obtain ⟨b', hb, hr⟩ := ih ha
      exact ⟨b', List.mem_cons_of_mem _ hb, hr⟩

omit [DecidableEq ι] in
theorem mem_of_recorded {m : Machine ι} {sent : List (String × Event)} {x : String × Event}
    (h : Got m sent bus) (hx : x ∈ m.recorded) : x ∈ sent := by
  cases bus with
  | null => exact h.1 ▸ hx
  | redis => exact h.2 x hx

omit [DecidableEq ι] in
theorem mem_of_delivered {m : Machine ι} {sent : List (String × Event)} {message : String × JsonObject}
    (h : Got m sent bus) (hm : message ∈ m.delivered) : ∃ post ∈ sent, Conveys message post := by
  cases bus with
  | null =>
    rw [h.2] at hm
    cases hm
  | redis => exact exists_of_forall₂ h.1 hm

theorem posts_events (e : Answered) : (posts e).map Prod.snd = Requests.eventsBy e := by
  obtain ⟨op, result, landed⟩ := e
  cases op with
  | publish channel event => cases landed <;> rfl
  | _ => rfl

omit [DecidableEq ι] in
theorem exists_eventsBy {log : List (ι × Answered)} {post : String × Event} (h : post ∈ posted log) :
    ∃ x ∈ log, post.2 ∈ Requests.eventsBy x.2 := by
  obtain ⟨x, hx, hpost⟩ := List.mem_flatMap.mp h
  refine ⟨x, hx, ?_⟩
  rw [← posts_events]
  exact List.mem_map_of_mem hpost

/-- The event carries the request id of invocation `i`, whose audit row is on the file. -/
def Vouched (ops : ι → Operation) (disk : World) (event : Event) : Prop :=
  ∃ i r, Requests.requestId (ops i) = some r ∧ event.carries r = true ∧ OnFile ops disk i

theorem step_on_file (h : Drivers.Reach (deploy bus ops file) s') {step : ι × Dict}
    (hstep : step ∈ s'.world.stepped) : OnFile ops s'.world.db.committed step.1 := by
  obtain ⟨s₁, s, h₁, h₂, hrelated, hcommitted, hack⟩ := moment h
  rw [hcommitted]
  obtain ⟨e, he, hop⟩ := hrelated.shared.stepped step hstep
  exact onFile_of_outside h₁ h₂ hack he (by rw [hop]; rfl)

/-- What the bus got is vouched for by the tables of an earlier moment that has
every acknowledged statement. -/
theorem vouched_of_sent {s₁ : Stack ι} {m : Machine ι} (h₁ : System.Reach Anyhow (start ops file) s₁)
    (h₂ : System.Reach Anyhow s₁ s) (hack : ∀ x ∈ s.log, Acknowledged x.2 → x ∈ s₁.log)
    (hsent : Sent bus file m s.past) :
    (∀ message ∈ m.delivered, ∃ event, Encodes message event ∧ Vouched ops s₁.world.tables event) ∧
    ∀ listed ∈ m.recorded, Vouched ops s₁.world.tables listed.2 := by
  have hreach := h₁.trans h₂
  have hgot := hsent.2
  have hvouched (post : String × Event) (hpost : post ∈ posted s.log) : Vouched ops s₁.world.tables post.2 := by
    obtain ⟨x, hx, hby⟩ := exists_eventsBy hpost
    obtain ⟨sup, req, d, payload, hi, hrow⟩ := onFile_of_outside h₁ h₂ hack hx (outside_of_event hby)
    have hid : Requests.requestId (ops x.1) = some d.requestId := by rw [hi]; rfl
    exact ⟨x.1, d.requestId, hid, (AtMostOnce.carries_iff hreach hx hby _).mpr hid,
      sup, req, d, payload, hi, hrow⟩
  refine ⟨fun message hmessage => ?_, fun listed hlisted => hvouched listed (mem_of_recorded hgot hlisted)⟩
  obtain ⟨post, hpost, _, hencodes⟩ := mem_of_delivered hgot hmessage
  exact ⟨post.2, hencodes, hvouched post hpost⟩

/-- Audit first, on disk: in every run of a deployment, whatever fails and
wherever the process stops, the file has the audit row of the invocation for
every message that has reached Redis, every event that the bus lists and every
call of the step function. -/
theorem audit_on_file_first (bus : EventBus) (ops : ι → Operation) (file : World) (s' : Deployment ι)
    (h : Drivers.Reach (deploy bus ops file) s') :
    (∀ message ∈ s'.world.delivered, ∃ event, Encodes message event ∧
      Vouched ops s'.world.db.committed event) ∧
    (∀ listed ∈ s'.world.recorded, Vouched ops s'.world.db.committed listed.2) ∧
    ∀ step ∈ s'.world.stepped, OnFile ops s'.world.db.committed step.1 := by
  obtain ⟨s₁, s, h₁, h₂, hrelated, hcommitted, hack⟩ := moment h
  obtain ⟨hdelivered, hrecorded⟩ := vouched_of_sent h₁ h₂ hack hrelated.shared.sent
  rw [← hcommitted] at hdelivered hrecorded
  exact ⟨hdelivered, hrecorded, fun step hstep => step_on_file h hstep⟩

theorem audit_on_file_first_lone : ∃ s', Drivers.Reach (deploy .redis (single 1) World.empty) s' ∧
    s'.world.stepped.length = 1 ∧ OnFile (single 1) s'.world.db.committed 0 := by
  obtain ⟨s', h, hstepped, _, _⟩ := lone_run
  obtain ⟨step, hstep⟩ := List.exists_mem_of_length_pos (by rw [hstepped]; exact Nat.one_pos)
  refine ⟨s', h, hstepped, ?_⟩
  have honly : step.1 = 0 := Subsingleton.elim _ _
  exact honly ▸ (audit_on_file_first .redis (single 1) World.empty s' h).2.2 step hstep

/-- What is on the file after any number of processes have run on it, one after
another, each of them with calls of its own until it stopped somewhere. -/
inductive Lives (disk₀ : World) : World → Prop
  | first : Lives disk₀ disk₀
  | next {κ : Type} [DecidableEq κ] {disk : World} (bus : EventBus) (ops : κ → Operation)
      (s' : Deployment κ) : Lives disk₀ disk → Drivers.Reach (deploy bus ops disk) s' →
      Lives disk₀ s'.world.db.committed

theorem auditLog_grows {cond : Stack ι → ι → Choice → Prop} {s₀ : Stack ι}
    (h : System.Reach cond s₀ s) : s₀.world.auditLog <+: s.world.auditLog := by
  induction h with
  | start => exact List.prefix_refl _
  | step _ _ hs ih =>
    obtain ⟨op, k, _, hworld, _, _⟩ := Pool.step_cases interp hs
    rw [hworld]
    exact ih.trans (AtMostOnce.auditLog_settle _ _)

theorem lives_auditLog {disk₀ disk : World} (h : Lives disk₀ disk) : disk₀.auditLog <+: disk.auditLog := by
  induction h with
  | first => exact List.prefix_refl _
  | next bus ops s' _ hreach ih =>
    obtain ⟨s₁, s, h₁, _, _, hcommitted, _⟩ := moment hreach
    rw [hcommitted]
    exact ih.trans (auditLog_grows h₁)

/-- Every life goes on with the forest of checkpoints that it found. -/
theorem lives_checkpoints {disk₀ disk : World} (h : Lives disk₀ disk)
    (h₀ : ∀ t, Ancestry.Grown (disk₀.checkpoints t)) :
    disk₀.langgraphCheckpoints <+: disk.langgraphCheckpoints ∧ ∀ t, Ancestry.Grown (disk.checkpoints t) := by
  induction h with
  | first => exact ⟨List.prefix_refl _, h₀⟩
  | next bus ops s' _ hreach ih =>
    obtain ⟨hrows, hgrown⟩ := ih
    obtain ⟨s₁, s, h₁, _, _, hcommitted, _⟩ := moment hreach
    rw [hcommitted]
    exact ⟨hrows.trans (Lineage.checkpoints_prefix h₁), Ancestry.grown_reach h₁ hgrown⟩

/-- Over any number of lives, whatever fails in them and wherever they stop: the
audit log on the file only grows, and so do the checkpoints. The parents of each
lead to a root, and from the life in which it came to the file that way never
changes. -/
theorem history_survives_crashes (disk₀ disk : World) (h : Lives disk₀ disk)
    (h₀ : ∀ t, Ancestry.Grown (disk₀.checkpoints t)) :
    disk₀.auditLog <+: disk.auditLog ∧ ∀ t, disk₀.checkpoints t <+: disk.checkpoints t ∧
      ∀ row ∈ disk.checkpoints t,
        Forest.Path CheckpointRow.checkpointId CheckpointRow.parentId none
          (Ancestry.lineOf (disk.checkpoints t) row) ∧
        (Ancestry.lineOf (disk.checkpoints t) row).getLast? = some row ∧
        (row ∈ disk₀.checkpoints t →
          Ancestry.lineOf (disk.checkpoints t) row = Ancestry.lineOf (disk₀.checkpoints t) row) := by
  obtain ⟨hrows, hgrown⟩ := lives_checkpoints h h₀
  refine ⟨lives_auditLog h, fun t => ?_⟩
  have hgrows : disk₀.checkpoints t <+: disk.checkpoints t :=
    hrows.filter fun row : CheckpointRow => row.threadId == t
  refine ⟨hgrows, fun row hrow => ?_⟩
  obtain ⟨hpath, hlast⟩ := (hgrown t).path hrow
  refine ⟨hpath, hlast, fun hold => ?_⟩
  have hgrown' := hgrown t
  obtain ⟨more, hmore⟩ := hgrows
  rw [← hmore] at hgrown' ⊢
  exact hgrown'.stable hold

theorem history_survives_crashes_lone : ∃ disk, Lives World.empty disk ∧
    (disk.checkpoints "t").length = 1 ∧ ∀ row ∈ disk.checkpoints "t",
      (Ancestry.lineOf (disk.checkpoints "t") row).getLast? = some row := by
  obtain ⟨s', h, _, _, hrows⟩ := lone_run
  have hlives : Lives World.empty s'.world.db.committed := .next .redis (single 1) s' .first h
  refine ⟨_, hlives, hrows, fun row hrow => ?_⟩
  exact (((history_survives_crashes World.empty _ hlives fun _ => .nil).2 "t").2 row hrow).2.1

/-- Once the step function has run for a request id in one life, it runs for
that id in none of the lives to come. -/
theorem request_id_steps_in_one_life {κ : Type} [DecidableEq κ] (bus : EventBus) (ops : ι → Operation)
    (file : World) (s' : Deployment ι) (h : Drivers.Reach (deploy bus ops file) s') (disk : World)
    (hlives : Lives s'.world.db.committed disk) (bus' : EventBus) (ops' : κ → Operation)
    (v' : Deployment κ) (h' : Drivers.Reach (deploy bus' ops' disk) v') (r : String) :
    (∃ step ∈ s'.world.stepped, Requests.requestId (ops step.1) = some r) →
    ∀ step ∈ v'.world.stepped, Requests.requestId (ops' step.1) ≠ some r := by
  rintro ⟨first, hfirst, hr⟩ step hstep hr'
  obtain ⟨sup, req, d, payload, hi, _, hrow⟩ := step_on_file h hfirst
  have hid : d.requestId = r := by
    rw [hi] at hr
    exact Option.some.inj hr
  have htaken : AtMostOnce.Taken disk r :=
    ⟨_, (lives_auditLog hlives).subset hrow, (pyOr_self _).trans hid⟩
  obtain ⟨s₁, s, h₁, h₂, hrelated, _, _⟩ := moment h'
  obtain ⟨e, he, hop⟩ := hrelated.shared.stepped step hstep
  refine (AtMostOnce.request_id_acts_once ops' disk s (h₁.trans h₂) r).2 htaken step.1 hr' (.inl ⟨e, ?_, ?_⟩)
  · exact Pool.mem_traceOf.mpr he
  · rw [hop]
    rfl

/-- The invocation above, started again on the file that its first life has left. -/
theorem request_id_steps_in_one_life_lone :
    ∃ s', Drivers.Reach (deploy .redis (single 1) World.empty) s' ∧ s'.world.stepped.length = 1 ∧
      ∀ v', Drivers.Reach (deploy .redis (single 1) s'.world.db.committed) v' → v'.world.stepped = [] := by
  obtain ⟨s', h, hstepped, _, _⟩ := lone_run
  obtain ⟨first, hfirst⟩ := List.exists_mem_of_length_pos (by rw [hstepped]; exact Nat.one_pos)
  refine ⟨s', h, hstepped, fun v' h' => List.eq_nil_iff_forall_not_mem.mpr fun step hstep => ?_⟩
  exact request_id_steps_in_one_life .redis (single 1) World.empty s' h _ .first .redis (single 1) v' h' "r"
    ⟨first, hfirst, rfl⟩ step hstep rfl

end NoblePort.Durability
