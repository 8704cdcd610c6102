/-
What the messages of a connection have to do with the requests of its pod manager. A request id is
queued, then on the wire, then held by the scheduler, then answered; the response comes back over
the wire, and its quota goes into `response_map`.
-/
import Gemini.PodManager.Tickets
import Gemini.Scheduler.Held
import Gemini.System.Network

namespace Gemini.System

open Gemini.Lib

/-- The id of a request for quota. -/
def Request.quotaId : Request → Option ℕ
  | .quota reqId _ _ => some reqId
  | .memLimit _ => none

/-- The id of a response to one. -/
def Response.quotaId : Response → Option ℕ
  | .quota reqId _ => some reqId
  | .memLimit .. => none

/-! ## The books of a pod manager -/

/-- Its requests by their ids, its responses and its quota. -/
structure Books where
  queue : List ℕ
  inFlight : List ℕ
  issued : ℕ
  responses : List (ℕ × ℚ)
  quota : ℚ
deriving DecidableEq, Repr

def books (m : PodManager.State) : Books :=
  ⟨m.requestQueue.map PodManager.Request.reqId, m.inFlight.map PodManager.Request.reqId, m.reqCnt, m.responseMap,
    m.podQuota⟩

/-- What a step of the pod manager does to its books, with what it sends. -/
inductive Booked (b : Books) : Books → List ℕ → Prop
  | quiet : Booked b b []
  /-- a request is queued -/
  | asks : Booked b { b with queue := b.queue ++ [b.issued], issued := b.issued + 1 } []
  /-- a request is sent -/
  | sends (reqId : ℕ) (rest : List ℕ) (h : b.queue = reqId :: rest) :
      Booked b { b with queue := rest, inFlight := b.inFlight ++ [reqId] } [reqId + 1]
  /-- a response is taken -/
  | takes (reqId : ℕ) (quota : ℚ) (h : b.responses.lookup reqId = some quota) :
      Booked b { b with responses := eraseKey reqId b.responses, quota := quota } []

variable {m m' : PodManager.State} {t : ℕ} {now : ℤ} {e : PodManager.Event}

theorem launch_booked (hs : m.launch t now = some m') : Booked (books m) (books m') [] := by
  unfold PodManager.State.launch at hs
  cases ht : m.threads t with
  | closed => rw [ht] at hs; cases hs
  | idle => rw [ht] at hs; cases hs
  | check overuse burst => simp only [ht] at hs; cases hs; split <;> exact .quiet
  | waitState overuse burst woken => simp only [ht] at hs; cases hs; exact .quiet
  | merge overuse burst => simp only [ht] at hs; cases hs; exact .quiet
  | stat burst => simp only [ht] at hs; cases hs; exact .quiet
  | decide burst => simp only [ht] at hs; cases hs; split <;> exact .quiet
  | set => simp only [ht] at hs; cases hs; exact .quiet
  | estimate => simp only [ht] at hs; cases hs; exact .quiet
  | enqueue burst =>
    simp only [ht] at hs; cases hs
    have hq :
      (m.requestQueue ++ [(⟨m.reqCnt, m.podOveruseMs, burst⟩ : PodManager.Request)]).map PodManager.Request.reqId =
        (books m).queue ++ [(books m).issued] := List.map_append
    simp only [books, hq]
    exact .asks
  | await reqId => simp only [ht] at hs; cases hs; exact .quiet
  | waitRsp reqId woken =>
    simp only [ht] at hs
    cases hl : m.responseMap.lookup reqId with
    | none => simp only [hl] at hs; cases hs; exact .quiet
    | some quota => simp only [hl] at hs; cases hs; exact .takes reqId quota hl
  | finish elapsed setter => simp only [ht] at hs; cases hs; exact .quiet
  | ret elapsed => simp only [ht] at hs; cases hs; exact .quiet

/-- A step that is not a response keeps the books in one of these ways. -/
theorem step_booked (hs : m.step e = some m') (he : ∀ reqId quota, e ≠ .reply reqId quota) :
    Booked (books m) (books m') ((sent m e).filterMap Request.quotaId) := by
  have haround : ∀ {u}, PodManager.State.Around u m m' → Booked (books m) (books m') [] := by
    rintro u ⟨-, d, b, -, rfl⟩
    exact .quiet
  cases e with
  | accept t => exact haround (PodManager.State.accept_some hs)
  | hangUp t => exact haround (PodManager.State.hangUp_some hs)
  | request t overuse burst => exact haround (PodManager.State.request_some hs)
  | advance t now =>
    obtain ⟨m₁, hs₁, rfl⟩ := PodManager.State.advance_some hs
    exact (launch_booked hs₁ : Booked (books m) (books m₁) [])
  | forward =>
    simp only [PodManager.State.step, PodManager.State.forward] at hs
    split at hs
    · rename_i hsd
      cases hs
      have hsent : sent m .forward = [] := by simp only [sent, hsd]
      rw [hsent]
      exact .quiet
    · rename_i woken hsd
      split at hs
      · rename_i hq
        cases hs
        have hsent : sent m .forward = [] := by simp only [sent, hsd, hq]
        rw [hsent]
        exact .quiet
      · rename_i r rest hq
        cases hs
        have hf : (m.inFlight ++ [r]).map PodManager.Request.reqId = (books m).inFlight ++ [r.reqId] := List.map_append
        have hsent : sent m .forward = [.quota (r.reqId + 1) r.overuse r.burst] := by simp only [sent, hsd, hq]
        have hb : (books m).queue = r.reqId :: rest.map PodManager.Request.reqId :=
          congrArg (List.map PodManager.Request.reqId) hq
        have hsends := Booked.sends r.reqId _ hb
        rw [← hf] at hsends
        rw [hsent]
        exact hsends
  | reply reqId quota => exact absurd rfl (he reqId quota)

/-- All it sends are requests for quota. -/
theorem quota_of_sent {r : Request} (h : r ∈ sent m e) : ∃ reqId overuse burst, r = .quota reqId overuse burst := by
  unfold sent at h
  split at h
  · split at h
    · rw [List.mem_singleton.1 h]
      exact ⟨_, _, _, rfl⟩
    · cases h
  · cases h

theorem map_eraseP_reqId (reqId : ℕ) : ∀ rs : List PodManager.Request,
    (rs.eraseP fun r => r.reqId = reqId).map PodManager.Request.reqId = (rs.map PodManager.Request.reqId).erase reqId
  | [] => rfl
  | r :: rs => by
    by_cases hr : r.reqId = reqId
    · rw [List.eraseP_cons_of_pos (by simpa using hr), List.map_cons, hr, List.erase_cons_head]
    · rw [List.eraseP_cons_of_neg (by simpa using hr), List.map_cons, List.map_cons, map_eraseP_reqId reqId rs,
        List.erase_cons_tail (by simpa using hr)]

/-- A response enters its quota and strikes its request. -/
theorem books_insertResponse (m : PodManager.State) (reqId : ℕ) (quota : ℚ) : books (insertResponse m reqId quota) =
    { books m with
      inFlight := (books m).inFlight.erase reqId
      responses := insertNew reqId quota (books m).responses } := by
  simp only [books, insertResponse, map_eraseP_reqId]

/-! ## The books of a connection -/

/-- The scheduler has answered a request of `conn` with this quota. -/
def Answered (sched : Scheduler.State) (conn reqId : ℕ) (quota : ℚ) : Prop :=
  ∃ a ∈ sched.answers, a.request.conn = conn ∧ a.request.reqId.toNat = reqId ∧ a.quota = quota

variable {sched sched' : Scheduler.State} {conn : ℕ}

theorem Answered.mono {reqId : ℕ} {quota : ℚ} (h : Answered sched conn reqId quota)
    (ha : sched.answers ⊆ sched'.answers) : Answered sched' conn reqId quota := by
  obtain ⟨a, hm, h⟩ := h
  exact ⟨a, ha hm, h⟩

namespace Pod

/-- The requests for quota on the wire. -/
def upIds (p : Pod) : List ℕ := p.up.filterMap Request.quotaId

/-- The responses to them. -/
def downIds (p : Pod) : List ℕ := p.down.filterMap Response.quotaId

/-- The books of a pod manager, its connection and the scheduler agree. -/
structure Inv (sched : Scheduler.State) (conn : ℕ) (p : Pod) : Prop where
  idle : ∀ n, p.phase = .asking n → p.manager = .init
  outstanding : ((books p.manager).inFlight.map (· + 1) : Multiset ℕ) =
    (p.upIds : Multiset ℕ) + sched.held conn + (p.downIds : Multiset ℕ)
  conserved : ((books p.manager).queue.map (· + 1) : Multiset ℕ) + (p.upIds : Multiset ℕ) + sched.held conn +
    (sched.answered conn : Multiset ℕ) = (Multiset.range (books p.manager).issued).map (· + 1)
  sentBack : ∀ reqId quota, .quota reqId quota ∈ p.down → Answered sched conn reqId quota
  entries : ∀ e ∈ (books p.manager).responses, Answered sched conn (e.1 + 1) e.2
  quota : (books p.manager).quota = 0 ∨ ∃ reqId, Answered sched conn reqId (books p.manager).quota
  known : p.phase = .serving ∨ 0 < (books p.manager).issued ∨
    (∃ reqId used total, .memLimit reqId used total ∈ p.down) → ∃ inf, sched.clients p.name = some inf
  limits : ∀ reqId used total, .memLimit reqId used total ∈ p.down → reqId = 0 ∧ used = 0
  asks : ∀ reqId, .memLimit reqId ∈ p.up → reqId = 0

variable {p p' : Pod}

/-- A pod manager that has just connected. -/
theorem Inv.connect (name : String) (hh : sched.held conn = 0) (ha : sched.answered conn = []) :
    Inv sched conn ⟨name, .asking 0, 0, 0, .init, [], []⟩ := by
  refine ⟨fun _ _ => rfl, ?_, ?_, nofun, nofun, .inl rfl, ?_, nofun, nofun⟩
  · rw [hh]; rfl
  · rw [hh, ha]; rfl
  · rintro (h | h | ⟨_, _, _, h⟩)
    · cases h
    · cases h
    · cases h

/-- The scheduler has made a step that is of no concern to the connection. -/
theorem Inv.of_sched (h : Inv sched conn p) (hh : sched'.held conn = sched.held conn)
    (hd : sched'.answered conn = sched.answered conn) (ha : sched.answers ⊆ sched'.answers)
    (hk : ∀ name, (∃ inf, sched.clients name = some inf) → ∃ inf, sched'.clients name = some inf) :
    Inv sched' conn p := by
  refine ⟨h.idle, by rw [hh]; exact h.outstanding, by rw [hh, hd]; exact h.conserved,
    fun reqId quota hr => Answered.mono (h.sentBack reqId quota hr) ha, fun e he => Answered.mono (h.entries e he) ha,
      ?_,
    fun hs => hk _ (h.known hs), h.limits, h.asks⟩
  rcases h.quota with h0 | ⟨reqId, h1⟩
  · exact .inl h0
  · exact .inr ⟨reqId, Answered.mono h1 ha⟩

/-- An id that is on its way to the scheduler was given out. -/
theorem Inv.issued_pos (h : Inv sched conn p) {reqId : ℕ} (hr : reqId ∈ p.upIds) : 0 < (books p.manager).issued := by
  have hm : reqId ∈ (Multiset.range (books p.manager).issued).map (· + 1) := by
    rw [← h.conserved]
    simp only [Multiset.mem_add, Multiset.mem_coe]
    exact .inl (.inl (.inr hr))
  obtain ⟨n, hn, -⟩ := Multiset.mem_map.1 hm
  exact lt_of_le_of_lt (Nat.zero_le n) (Multiset.mem_range.1 hn)

/-- The response to a request for quota finds it outstanding. -/
theorem Inv.mem_inFlight (h : Inv sched conn p) {reqId : ℕ} (hr : reqId + 1 ∈ p.downIds) :
    reqId ∈ (books p.manager).inFlight := by
  have hm : reqId + 1 ∈ ((books p.manager).inFlight.map (· + 1) : Multiset ℕ) := by
    rw [h.outstanding]
    simp only [Multiset.mem_add, Multiset.mem_coe]
    exact .inr hr
  obtain ⟨n, hn, he⟩ := List.mem_map.1 (Multiset.mem_coe.1 hm)
  rwa [← Nat.succ.inj he]

/-! ## The steps of a pod manager -/

theorem ask_some (hs : p.ask = some p') : (∃ n, p.phase = .asking n) ∧
    ∃ n, p' = { p with phase := .asking n, up := p.up ++ [.memLimit 0] } := by
  unfold ask at hs
  split at hs
  · rename_i n hp
    split at hs
    · cases hs; exact ⟨⟨n, hp⟩, n + 1, rfl⟩
    · cases hs
  · cases hs

theorem Inv.ask (h : Inv sched conn p) (hs : p.ask = some p') : Inv sched conn p' := by
  obtain ⟨⟨n, hp⟩, k, rfl⟩ := ask_some hs
  have hup : Pod.upIds { p with phase := .asking k, up := p.up ++ [.memLimit 0] } = p.upIds := by
    simp [upIds, Request.quotaId]
  refine ⟨fun _ _ => h.idle n hp, ?_, ?_, h.sentBack, h.entries, h.quota, fun hk => h.known ?_, h.limits,
    fun reqId hr => ?_⟩
  · rw [hup]; exact h.outstanding
  · rw [hup]; exact h.conserved
  · exact hk.imp_left nofun
  · rcases List.mem_append.1 hr with hr | hr
    · exact h.asks reqId hr
    · cases List.mem_singleton.1 hr; rfl

theorem learn_some (hs : p.learn = some p') : (∃ n, p.phase = .asking n) ∧ ∃ reqId used total rest,
    p.down = .memLimit reqId used total :: rest ∧
    p' = { p with
      phase := if used = 0 then .serving else .exited, gpuMemUsed := used, gpuMemLimit := total, down := rest } := by
  unfold learn at hs
  split at hs
  · rename_i n reqId used total rest hp hd
    cases hs
    exact ⟨⟨n + 1, hp⟩, reqId, used, total, rest, hd, rfl⟩
  · cases hs

theorem Inv.learn (h : Inv sched conn p) (hs : p.learn = some p') : Inv sched conn p' := by
  obtain ⟨⟨n, hp⟩, reqId, used, total, rest, hd, rfl⟩ := learn_some hs
  have hmem : Response.memLimit reqId used total ∈ p.down := by rw [hd]; exact List.mem_cons_self ..
  have hrest : ∀ {r}, r ∈ rest → r ∈ p.down := fun hr => by rw [hd]; exact List.mem_cons_of_mem _ hr
  have hdown : p.downIds = rest.filterMap Response.quotaId := by rw [downIds, hd]; rfl
  refine ⟨fun k hk => h.idle n hp, ?_, h.conserved, fun r q hr => h.sentBack r q (hrest hr), h.entries, h.quota,
    fun _ => h.known (.inr (.inr ⟨reqId, used, total, hmem⟩)), fun r u l hr => h.limits r u l (hrest hr), h.asks⟩
  have := h.outstanding
  rw [hdown] at this
  exact this

theorem Inv.exit (h : Inv sched conn p) (hs : p.exit = some p') : Inv sched conn p' := by
  unfold Pod.exit at hs
  split at hs
  · cases hs
  · cases hs
    exact ⟨nofun, h.outstanding, h.conserved, h.sentBack, h.entries, h.quota, fun hk =>
      h.known (.inr (hk.resolve_left nofun)), h.limits, h.asks⟩

theorem act_some {e : PodManager.Event} (hs : p.act e = some p') :
    p.phase = .serving ∧ (∀ reqId quota, e ≠ .reply reqId quota) ∧
    ∃ m, p.manager.step e = some m ∧ p' = { p with manager := m, up := p.up ++ sent p.manager e } := by
  unfold act at hs
  split at hs
  · rename_i hp
    cases e with
    | reply reqId quota => cases hs
    | _ =>
      obtain ⟨m, hm, rfl⟩ := Option.map_eq_some_iff.1 hs
      exact ⟨hp, nofun, m, hm, rfl⟩
  · cases hs

/-- The pod manager that sends a request puts it on the wire. -/
theorem Inv.act (h : Inv sched conn p) {e : PodManager.Event} (hs : p.act e = some p') : Inv sched conn p' := by
  obtain ⟨hp, he, m, hm, rfl⟩ := act_some hs
  have hbooked := step_booked hm he
  have hup : Pod.upIds { p with manager := m, up := p.up ++ sent p.manager e } =
      p.upIds ++ (sent p.manager e).filterMap Request.quotaId := List.filterMap_append
  have hdown : Pod.downIds { p with manager := m, up := p.up ++ sent p.manager e } = p.downIds := rfl
  have hidle : ∀ n, p.phase = .asking n → m = .init := by
    intro n hn
    rw [hp] at hn
    cases hn
  have hasks : ∀ reqId, .memLimit reqId ∈ p.up ++ sent p.manager e → reqId = 0 := by
    intro reqId hr
    rcases List.mem_append.1 hr with hr | hr
    · exact h.asks reqId hr
    · obtain ⟨_, _, _, hq⟩ := quota_of_sent hr
      cases hq
  have hknown := h.known (.inl hp)
  generalize (sent p.manager e).filterMap Request.quotaId = out at hbooked hup
  generalize hb : books m = b at hbooked
  refine ⟨hidle, ?_, ?_, h.sentBack, ?_, ?_, fun _ => hknown, h.limits, hasks⟩
  · rw [hup, hb, hdown]
    have ho := h.outstanding
    cases hbooked with
    | quiet => simpa using ho
    | asks => simpa using ho
    | sends reqId rest hq =>
      simp only [List.map_append, List.map_cons, List.map_nil, ← Multiset.coe_add, ho]
      abel
    | takes reqId quota hl => simpa using ho
  · rw [hup, hb]
    have hc := h.conserved
    cases hbooked with
    | quiet => simpa using hc
    | asks =>
      rw [Multiset.range_succ, Multiset.map_cons, ← hc, ← Multiset.singleton_add]
      simp only [List.map_append, List.map_cons, List.map_nil, ← Multiset.coe_add, List.append_nil,
        Multiset.coe_singleton]
      abel
    | sends reqId rest hq =>
      rw [hq, List.map_cons, ← Multiset.cons_coe, ← Multiset.singleton_add] at hc
      simp only [← Multiset.coe_add, Multiset.coe_singleton, ← hc]
      abel
    | takes reqId quota hl => simpa using hc
  · intro x hx
    rw [hb] at hx
    cases hbooked with
    | quiet => exact h.entries x hx
    | asks => exact h.entries x hx
    | sends reqId rest hq => exact h.entries x hx
    | takes reqId quota hl => exact h.entries x (mem_eraseKey hx)
  · rw [hb]
    cases hbooked with
    | quiet => exact h.quota
    | asks => exact h.quota
    | sends reqId rest hq => exact h.quota
    | takes reqId quota hl => exact .inr ⟨_, h.entries _ (mem_of_lookup hl)⟩

theorem receive_some (hs : p.receive = some p') : p.phase = .serving ∧
    ((∃ reqId quota rest, p.down = .quota (reqId + 1) quota :: rest ∧
        p' = { p with manager := insertResponse p.manager reqId quota, down := rest }) ∨
      ∃ used total rest, p.down = .memLimit 0 used total :: rest ∧
        p' = { p with manager := rouse p.manager, down := rest }) := by
  unfold receive at hs
  split at hs
  · rename_i hp
    refine ⟨hp, ?_⟩
    split at hs
    · rename_i reqId quota rest hd; cases hs; exact .inl ⟨reqId, quota, rest, hd, rfl⟩
    · rename_i used total rest hd; cases hs; exact .inr ⟨used, total, rest, hd, rfl⟩
    · cases hs
  · cases hs

/-- A response comes off the wire, and its request is no longer outstanding. -/
theorem Inv.receive (h : Inv sched conn p) (hs : p.receive = some p') : Inv sched conn p' := by
  obtain ⟨hp, ⟨reqId, quota, rest, hd, rfl⟩ | ⟨used, total, rest, hd, rfl⟩⟩ := receive_some hs
  · have hrest : ∀ {r}, r ∈ rest → r ∈ p.down := fun hr => by rw [hd]; exact List.mem_cons_of_mem _ hr
    have hdown : p.downIds = (reqId + 1) :: rest.filterMap Response.quotaId := by rw [downIds, hd]; rfl
    have hin : reqId ∈ (books p.manager).inFlight := h.mem_inFlight (by rw [hdown]; exact List.mem_cons_self ..)
    have hnew : Answered sched conn (reqId + 1) quota := h.sentBack _ _ (by rw [hd]; exact List.mem_cons_self ..)
    refine ⟨fun n hn => ?_, ?_, ?_, fun r q hr => h.sentBack r q (hrest hr), ?_, ?_, fun _ => h.known (.inl hp),
      fun r u l hr => h.limits r u l (hrest hr), h.asks⟩
    · rw [hp] at hn; cases hn
    · have ho := h.outstanding
      rw [hdown, Multiset.coe_eq_coe.2 ((List.perm_cons_erase hin).map (· + 1)), List.map_cons, ← Multiset.cons_coe,
        ← Multiset.cons_coe, Multiset.add_cons, Multiset.cons_inj_right] at ho
      rw [books_insertResponse]
      exact ho
    · rw [books_insertResponse]
      exact h.conserved
    · intro x hx
      rw [books_insertResponse] at hx
      rcases mem_insertNew hx with hx | ⟨rfl, -⟩
      · exact h.entries x hx
      · exact hnew
    · rw [books_insertResponse]
      exact h.quota
  · have hrest : ∀ {r}, r ∈ rest → r ∈ p.down := fun hr => by rw [hd]; exact List.mem_cons_of_mem _ hr
    have hdown : p.downIds = rest.filterMap Response.quotaId := by rw [downIds, hd]; rfl
    refine ⟨fun n hn => ?_, ?_, h.conserved, fun r q hr => h.sentBack r q (hrest hr), h.entries, h.quota,
      fun _ => h.known (.inl hp), fun r u l hr => h.limits r u l (hrest hr), h.asks⟩
    · rw [hp] at hn; cases hn
    · have ho := h.outstanding
      rw [hdown] at ho
      exact ho

/-! ## The steps of the scheduler -/

/-- A request for quota comes off the wire into the scheduler. -/
theorem Inv.request (h : Inv sched conn p) {reqId : ℕ} {overuse burst : ℚ} {rest : List Request}
    (hup : p.up = .quota reqId overuse burst :: rest) (hh : sched'.held conn = sched.held conn + {reqId})
    (ha : sched'.answers = sched.answers)
    (hk : ∀ name, (∃ inf, sched.clients name = some inf) → ∃ inf, sched'.clients name = some inf) :
    Inv sched' conn { p with up := rest } := by
  have hids : p.upIds = reqId :: rest.filterMap Request.quotaId := by rw [upIds, hup]; rfl
  have hanswered : sched'.answered conn = sched.answered conn := by
    rw [Scheduler.State.answered, Scheduler.State.answered, ha]
  have hmono : ∀ {r q}, Answered sched conn r q → Answered sched' conn r q :=
    fun h' => h'.mono (by rw [ha]; exact fun _ => id)
  refine ⟨h.idle, ?_, ?_, fun r q hr => hmono (h.sentBack r q hr), fun e he => hmono (h.entries e he), ?_,
    fun hs => hk _ (h.known hs), h.limits, fun r hr => h.asks r (by rw [hup]; exact List.mem_cons_of_mem _ hr)⟩
  · rw [hh]
    refine h.outstanding.trans ?_
    rw [hids, ← Multiset.cons_coe, ← Multiset.singleton_add]
    simp only [upIds, downIds]
    abel
  · rw [hh, hanswered]
    refine Eq.trans ?_ h.conserved
    rw [hids, ← Multiset.cons_coe, ← Multiset.singleton_add]
    simp only [upIds]
    abel
  · refine h.quota.imp_right ?_
    rintro ⟨r, hr⟩
    exact ⟨r, hmono hr⟩

/-- A request for the memory limit is answered, or ignored. -/
theorem Inv.memLimit (h : Inv sched conn p) {reqId : ℕ} {rest : List Request} (hup : p.up = .memLimit reqId :: rest)
    (back : List Response)
    (hback : ∀ r ∈ back, ∃ inf, sched.clients p.name = some inf ∧ r = .memLimit reqId 0 inf.gpuMemLimit) :
    Inv sched conn { p with up := rest, down := p.down ++ back } := by
  have hids : p.upIds = rest.filterMap Request.quotaId := by rw [upIds, hup]; rfl
  have hnone : back.filterMap Response.quotaId = [] := by
    rw [List.filterMap_eq_nil_iff]
    intro r hr
    obtain ⟨inf, -, rfl⟩ := hback r hr
    rfl
  have hdown : Pod.downIds { p with up := rest, down := p.down ++ back } = p.downIds := by
    simp only [downIds, List.filterMap_append, hnone, List.append_nil]
  refine ⟨h.idle, ?_, ?_, fun r q hr => ?_, h.entries, h.quota, ?_, fun r u l hr => ?_,
    fun r hr => h.asks r (by rw [hup]; exact List.mem_cons_of_mem _ hr)⟩
  · rw [hdown]
    refine h.outstanding.trans ?_
    rw [hids, upIds]
  · refine Eq.trans ?_ h.conserved
    rw [hids, upIds]
  · rcases List.mem_append.1 hr with hr | hr
    · exact h.sentBack r q hr
    · obtain ⟨inf, -, hq⟩ := hback _ hr
      cases hq
  · rintro (hs | hs | ⟨r, u, l, hr⟩)
    · exact h.known (.inl hs)
    · exact h.known (.inr (.inl hs))
    · rcases List.mem_append.1 hr with hr | hr
      · exact h.known (.inr (.inr ⟨r, u, l, hr⟩))
      · obtain ⟨inf, hi, -⟩ := hback _ hr
        exact ⟨inf, hi⟩
  · rcases List.mem_append.1 hr with hr | hr
    · exact h.limits r u l hr
    · obtain ⟨inf, -, hq⟩ := hback _ hr
      cases hq
      exact ⟨h.asks reqId (by rw [hup]; exact List.mem_cons_self ..), rfl⟩

/-- A quota goes onto the wire. -/
theorem Inv.send (h : Inv sched conn p) {reqId : ℕ} {quota : ℚ} (hh : sched'.held conn + {reqId} = sched.held conn)
    (hd : sched'.answered conn = sched.answered conn ++ [reqId]) (ha : sched.answers ⊆ sched'.answers)
    (hnew : Answered sched' conn reqId quota) (hk : sched'.clients = sched.clients) :
    Inv sched' conn { p with down := p.down ++ [.quota reqId quota] } := by
  have hdown : Pod.downIds { p with down := p.down ++ [.quota reqId quota] } = p.downIds ++ [reqId] :=
    List.filterMap_append
  refine ⟨h.idle, ?_, ?_, fun r q hr => ?_, fun e he => (h.entries e he).mono ha, ?_, ?_, fun r u l hr => ?_, h.asks⟩
  · rw [hdown]
    refine h.outstanding.trans ?_
    rw [← hh]
    simp only [← Multiset.coe_add, Multiset.coe_singleton, upIds]
    abel
  · rw [hd]
    refine Eq.trans ?_ h.conserved
    rw [← hh]
    simp only [← Multiset.coe_add, Multiset.coe_singleton, upIds]
    abel
  · rcases List.mem_append.1 hr with hr | hr
    · exact (h.sentBack r q hr).mono ha
    · cases List.mem_singleton.1 hr
      exact hnew
  · exact h.quota.imp_right fun ⟨r, hr⟩ => ⟨r, hr.mono ha⟩
  · rw [hk]
    rintro (hs | hs | ⟨r, u, l, hr⟩)
    · exact h.known (.inl hs)
    · exact h.known (.inr (.inl hs))
    · rcases List.mem_append.1 hr with hr | hr
      · exact h.known (.inr (.inr ⟨r, u, l, hr⟩))
      · cases List.mem_singleton.1 hr
  · rcases List.mem_append.1 hr with hr | hr
    · exact h.limits r u l hr
    · cases List.mem_singleton.1 hr

end Pod

end Gemini.System
