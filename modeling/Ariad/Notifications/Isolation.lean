import Ariad.Notifications.OneSocket

/-!
# Isolation of notifications

* `World.Isolated` — everything that still counts at the client or is on its way to it is of the hook's project.
* `Attended` — the condition on the broadcasts and on the callbacks.
* `notifications_isolated` — the laws over all runs.
-/

namespace Ariad.Notifications

open List

variable {w w' : World} {s s' : Socket} {i j : ℕ} {p q : Text} {project : Option Text} {b : Bootstrap} {host : Host}

/-! ## One project -/

/-- The second name is that of the first one's project: itself, or another name of its stores. -/
def Host.Names (host : Host) (p q : Text) : Prop := q = p ∨ host.env.projectsReferToSameStores p q = true

/-- What is on its way at a socket, and its filter, are of its project. -/
structure Socket.Isolated (host : Host) (s : Socket) : Prop where
  toClient : s.live = true → ∀ event, .notification event ∈ s.toClient → host.Names s.project event.project
  toServer : ∀ p, .subscribe p ∈ s.toServer → p = s.project
  filter : ∀ c, s.filter = some c → c ≠ [] ∧ host.Names s.project c

/-- The sockets, the timer and the bootstraps that still count are of the hook's project, and so were all calls of
`onNotification`. -/
structure World.Isolated (host : Host) (w : World) : Prop where
  sockets : ∀ s ∈ w.sockets, s.Isolated host
  current : ∀ s ∈ w.sockets, s.gen = w.wsGenRef → w.mountedRef = true → w.project = some s.project
  pending : ∀ b, w.Pending b → w.mountedRef = true → w.project = some b.project
  timer : ∀ t, w.reconnectTimerRef = some t → w.project = some t.1
  calls : ∀ c ∈ w.calls, ∃ p, c.2 = some p ∧ host.Names p c.1.project

/-- The condition on the events: a broadcast of another project finds no live socket of the hook that the server has
accepted and that has no filter yet, and `reconnect` is called through a render for the hook's project. -/
def Attended (host : Host) (w : World) : WsEvent → Prop
  | .broadcast event => ∀ s ∈ w.sockets, s.live = true → s.server = .opened → s.filter = none →
    host.Names s.project event.project
  | .reconnect k => w.mountedRef = true → ∀ project, w.renders[k]? = some (some project) → project ≠ [] →
    w.project = some project
  | _ => True

namespace World

/-- A part of the hook that is the same in another world. -/
structure Same (w w' : World) : Prop where
  mountedRef : w'.mountedRef = w.mountedRef
  project : w'.project = w.project
  wsGenRef : w'.wsGenRef = w.wsGenRef
  bootstraps : w'.bootstraps = w.bootstraps
  calls : w'.calls = w.calls

/-- Sockets that stay isolated. -/
def Stays (host : Host) (s s' : Socket) : Prop :=
  s'.gen = s.gen ∧ s'.project = s.project ∧ (s.Isolated host → s'.Isolated host)

theorem Isolated.stay (hs : w.Isolated host) (hsame : Same w w')
    (hsockets : Positions.Pointwise (Stays host) w.sockets w'.sockets)
    (htimer : ∀ t, w'.reconnectTimerRef = some t → w.reconnectTimerRef = some t) : w'.Isolated host := by
  refine ⟨fun s' hs' => ?_, fun s' hs' hgen hmounted => ?_, fun b hb hmounted => ?_, fun t ht => ?_,
    hsame.calls ▸ hs.calls⟩
  · obtain ⟨s, hmem, -, -, hkeep⟩ := hsockets.exists_mem hs'
    exact hkeep (hs.sockets s hmem)
  · obtain ⟨s, hmem, hsgen, hsproject, -⟩ := hsockets.exists_mem hs'
    rw [hsame.project, hsproject]
    exact hs.current s hmem (hsgen.symm.trans (hgen.trans hsame.wsGenRef)) (hsame.mountedRef ▸ hmounted)
  · rw [hsame.project]
    refine hs.pending b ⟨hsame.bootstraps ▸ hb.1, hb.2.1, hb.2.2.trans hsame.wsGenRef⟩ (hsame.mountedRef ▸ hmounted)
  · rw [hsame.project]
    exact hs.timer t (htimer t ht)

theorem stays_refl (host : Host) (s : Socket) : Stays host s s := ⟨rfl, rfl, id⟩

theorem pointwise_stays (host : Host) (l : List Socket) : Positions.Pointwise (Stays host) l l :=
  fun _ s hi => ⟨s, hi, stays_refl host s⟩

theorem Isolated.modifySocket (hs : w.Isolated host) {f : Socket → Socket}
    (hf : ∀ s, w.sockets[i]? = some s → Stays host s (f s)) : (w.modifySocket i f).Isolated host :=
  hs.stay ⟨rfl, rfl, rfl, rfl, rfl⟩ (Positions.pointwise_modify (stays_refl host) hf) fun _ => id

/-- What is on its way to a socket that is not live is not looked at. -/
theorem stays_close (host : Host) (s : Socket) : Stays host s s.close := by
  obtain ⟨hgen, hdead, hproject⟩ := close_spec s
  refine ⟨hgen, hproject, fun hs => ⟨fun hlive => absurd (hdead.symm.trans hlive) Bool.false_ne_true, ?_, ?_⟩⟩
  · rw [Socket.close]
    split
    · exact hs.toServer
    · exact hs.toServer
  · rw [Socket.close]
    split
    · exact hs.filter
    · exact hs.filter

theorem pointwise_closeCurrent (host : Host) (w : World) :
    Positions.Pointwise (Stays host) w.sockets w.closeCurrent.sockets := by
  simp only [closeCurrent]
  cases w.wsRef with
  | none => exact pointwise_stays host w.sockets
  | some i => exact Positions.pointwise_modify (stays_refl host) fun s _ => stays_close host s

section

variable (hs : w.Isolated host)
include hs

/-- `connect` for the project of the hook. -/
theorem Isolated.connect (hone : w.Single) {project : Option Text}
    (hproject : w.mountedRef = true → ∀ p, project = some p → p ≠ [] → w.project = some p) :
    (w.connect project).Isolated host := by
  cases project with
  | none => exact hs
  | some p =>
    simp only [World.connect]
    split
    · exact hs
    · rename_i hgo
      simp only [Bool.or_eq_true, decide_eq_true_eq, Bool.not_eq_true', not_or, Bool.not_eq_false] at hgo
      refine ⟨hs.sockets, fun s hmem hgen _ => ?_, fun b hb _ => ?_, hs.timer, hs.calls⟩
      · exact absurd (hgen ▸ hone.socketLe s hmem) (Nat.not_succ_le_self _)
      · obtain ⟨hmem, -, hgen⟩ := hb
        rcases mem_append.mp hmem with hmem | hmem
        · exact absurd (hgen ▸ hone.bootstrapLe b hmem) (Nat.not_succ_le_self _)
        · obtain rfl := mem_singleton.mp hmem
          exact hproject hgo.2 p rfl hgo.1

theorem Isolated.scheduleReconnect (hp : w.mountedRef = true → w.project = some p) :
    (w.scheduleReconnect p).Isolated host := by
  rw [World.scheduleReconnect]
  split
  · exact hs
  · rename_i hmounted
    refine ⟨hs.sockets, hs.current, hs.pending, fun t ht => ?_, hs.calls⟩
    obtain rfl := Option.some.inj ht
    exact hp (by simpa using hmounted)

/-- The effect of a render: whatever there was is of an older generation. -/
theorem Isolated.effect (hone : w.Single) (project : Option Text) :
    (w.cleanUp.runEffect project).Isolated host := by
  have hsockets : Positions.Pointwise (Stays host) w.sockets w.cleanUp.sockets := pointwise_closeCurrent host w
  have hmounted : Isolated host
      { w.cleanUp with mountedRef := true, project := project, effectDue := false, connected := false } := by
    refine ⟨fun s hmem => ?_, fun s hmem hgen _ => ?_, fun b hb _ => ?_, fun t ht => (by cases ht), hs.calls⟩
    · obtain ⟨s₀, hmem₀, -, -, hkeep⟩ := hsockets.exists_mem hmem
      exact hkeep (hs.sockets s₀ hmem₀)
    · obtain ⟨s₀, hmem₀, hsgen, -⟩ := hsockets.exists_mem hmem
      exact absurd (hsgen.symm.trans hgen ▸ hone.socketLe s₀ hmem₀) (Nat.not_succ_le_self _)
    · have hle := hone.bootstrapLe b hb.1
      rw [hb.2.2] at hle
      exact absurd hle (Nat.not_succ_le_self _)
  have hsingle : Single
      { w.cleanUp with mountedRef := true, project := project, effectDue := false, connected := false } :=
    hone.cleanUp.1.of_dead le_rfl rfl rfl hone.cleanUp.2 rfl
  exact hmounted.connect hsingle fun _ p hp _ => hp

theorem Isolated.unmount : Isolated host { w.cleanUp with effectDue := false } := by
  have hsockets : Positions.Pointwise (Stays host) w.sockets w.cleanUp.sockets := pointwise_closeCurrent host w
  refine ⟨fun s hmem => ?_, fun _ _ _ h => absurd h Bool.false_ne_true,
    fun _ _ h => absurd h Bool.false_ne_true, fun t ht => (by cases ht), hs.calls⟩
  obtain ⟨s₀, hmem₀, -, -, hkeep⟩ := hsockets.exists_mem hmem
  exact hkeep (hs.sockets s₀ hmem₀)

theorem Isolated.reconnect (hone : w.Single) {project : Option Text}
    (hproject : w.mountedRef = true → ∀ p, project = some p → p ≠ [] → w.project = some p) :
    (w.reconnect project).Isolated host := by
  have hoff : Isolated host { w with reconnectAttemptRef := 0, reconnectTimerRef := none } :=
    hs.stay ⟨rfl, rfl, rfl, rfl, rfl⟩ (pointwise_stays host _) fun t ht => (by cases ht)
  have hone' : Single { w with reconnectAttemptRef := 0, reconnectTimerRef := none } :=
    hone.fade rfl rfl rfl rfl rfl (fun _ s hi => ⟨s, hi, rfl, id⟩) fun h => absurd h Bool.false_ne_true
  have hclosed : Isolated host (closeCurrent { w with reconnectAttemptRef := 0, reconnectTimerRef := none }) :=
    hoff.stay ⟨rfl, rfl, rfl, rfl, rfl⟩ (pointwise_closeCurrent host _) fun t ht => (by cases ht)
  exact hclosed.connect hone'.closeCurrent.1 hproject

/-- A bootstrap that still counts is one for the hook's project. -/
theorem Isolated.bootstrapped (hi : w.bootstraps[i]? = some b) (hdone : b.done = false)
    (result : BootstrapResult) : Isolated host (World.bootstrapped
      { w with bootstraps := w.bootstraps.modify i fun b => { b with done := true } } b result) := by
  have hmarked : Isolated host { w with bootstraps := w.bootstraps.modify i fun b => { b with done := true } } := by
    refine ⟨hs.sockets, hs.current, fun c hc => ?_, hs.timer, hs.calls⟩
    obtain ⟨hmem, hcdone, hgen⟩ := hc
    obtain ⟨j, d, hj, ⟨-, rfl⟩ | ⟨-, rfl⟩⟩ := Positions.mem_modify hmem
    · exact hs.pending c ⟨mem_of_getElem? hj, hcdone, hgen⟩
    · cases hcdone
  simp only [World.bootstrapped]
  split
  · exact hmarked
  · rename_i hcurrent
    simp only [ne_eq, Bool.or_eq_true, decide_eq_true_eq, Bool.not_eq_true', not_or, not_not, Bool.not_eq_false]
      at hcurrent
    obtain ⟨hgen, hmounted⟩ := hcurrent
    have hproject := hs.pending b ⟨mem_of_getElem? hi, hdone, hgen.symm⟩ hmounted
    cases result with
    | failed => exact hmarked.scheduleReconnect fun _ => hproject
    | refused => exact hmarked.scheduleReconnect fun _ => hproject
    | created =>
      refine ⟨fun s hmem => ?_, fun s hmem hsgen _ => ?_, hmarked.pending, hs.timer, hs.calls⟩
      · rcases mem_append.mp hmem with hmem | hmem
        · exact hs.sockets s hmem
        · obtain rfl := mem_singleton.mp hmem
          exact ⟨fun _ _ h => (by cases h), fun _ h => (by cases h), fun _ h => (by cases h)⟩
      · rcases mem_append.mp hmem with hmem | hmem
        · exact hs.current s hmem hsgen hmounted
        · obtain rfl := mem_singleton.mp hmem
          exact hproject

theorem Isolated.onopen (s : Socket) : (w.onopen i s).Isolated host := by
  rw [World.onopen]
  split
  · exact hs
  · have hsent : (w.modifySocket i fun s => { s with toServer := s.toServer ++ [.subscribe s.project] }).Isolated host := by
      refine hs.modifySocket fun t _ => ⟨rfl, rfl, fun ht => ⟨ht.toClient, fun p hp => ?_, ht.filter⟩⟩
      rcases mem_append.mp hp with hp | hp
      · exact ht.toServer p hp
      · exact ClientMessage.subscribe.inj (mem_singleton.mp hp)
    exact hsent.stay ⟨rfl, rfl, rfl, rfl, rfl⟩ (pointwise_stays host _) fun _ => id

/-- The message of a live socket is delivered. -/
theorem Isolated.onmessage (hi : w.sockets[i]? = some s) (hlive : s.live = true)
    {m : ServerMessage} {rest : List ServerMessage} (hm : s.toClient = m :: rest) :
    ((w.modifySocket i fun s => { s with toClient := rest }).onmessage s m).Isolated host := by
  have hmem : s ∈ w.sockets := mem_of_getElem? hi
  have htaken : (w.modifySocket i fun s => { s with toClient := rest }).Isolated host := by
    refine hs.modifySocket fun t ht => ⟨rfl, rfl, fun hiso => ⟨fun _ event hevent => ?_, hiso.toServer, hiso.filter⟩⟩
    obtain rfl := Option.some.inj (hi.symm.trans ht)
    exact hiso.toClient hlive event (hm ▸ mem_cons_of_mem m hevent)
  simp only [World.onmessage]
  split
  · exact htaken
  · rename_i hstale
    obtain ⟨hgen, hmounted⟩ := stale_eq_false hstale
    cases m with
    | connected project => exact htaken
    | pong => exact htaken.stay ⟨rfl, rfl, rfl, rfl, rfl⟩ (pointwise_stays host _) fun _ => id
    | notification event =>
      refine ⟨htaken.sockets, htaken.current, htaken.pending, htaken.timer, fun c hc => ?_⟩
      rcases mem_append.mp hc with hc | hc
      · exact hs.calls c hc
      · obtain rfl := mem_singleton.mp hc
        have hfor : (w.modifySocket i fun s => { s with toClient := rest }).mountedFor = some s.project :=
          (if_pos hmounted).trans (hs.current s hmem hgen hmounted)
        exact ⟨s.project, hfor, (hs.sockets s hmem).toClient hlive event (hm ▸ mem_cons_self)⟩

theorem Isolated.onclose (hi : w.sockets[i]? = some s) :
    ((w.modifySocket i fun s => { s with readyState := .closed }).onclose s).Isolated host := by
  have hclosed : (w.modifySocket i fun s => { s with readyState := .closed }).Isolated host :=
    hs.modifySocket fun t _ => ⟨rfl, rfl, fun ht => ⟨fun hlive => absurd hlive Bool.false_ne_true, ht.toServer, ht.filter⟩⟩
  rw [World.onclose]
  split
  · exact hclosed
  · rename_i hstale
    obtain ⟨hgen, hmounted⟩ := stale_eq_false hstale
    have hstopped : Isolated host
        ({ w.modifySocket i fun s => { s with readyState := .closed } with connected := false } : World).stopPing :=
      hclosed.stay ⟨rfl, rfl, rfl, rfl, rfl⟩ (pointwise_stays host _) fun _ => id
    exact hstopped.scheduleReconnect fun _ => hs.current s (mem_of_getElem? hi) hgen hmounted

theorem Isolated.close (i : ℕ) : (w.modifySocket i Socket.close).Isolated host :=
  hs.modifySocket fun s _ => stays_close host s

theorem Isolated.ping : w.ping.Isolated host := by
  have hping (i : ℕ) : (w.modifySocket i fun s => { s with toServer := s.toServer ++ [.ping] }).Isolated host := by
    refine hs.modifySocket fun t _ => ⟨rfl, rfl, fun ht => ⟨ht.toClient, fun p hp => ?_, ht.filter⟩⟩
    rcases mem_append.mp hp with hp | hp
    · exact ht.toServer p hp
    · cases mem_singleton.mp hp
  rw [World.ping]
  split
  · exact hs
  · split
    · exact hs
    · split
      · exact hs
      · exact (hping _).stay ⟨rfl, rfl, rfl, rfl, rfl⟩ (pointwise_stays host _) fun _ => id

end

theorem ne_nil_of_valid (h : Ui.isValidProjectName p = true) : p ≠ [] := by
  rintro rfl
  exact absurd h (by decide)

/-- A filter is a name of the project that the socket has subscribed to. -/
theorem resolved_names {registry : Ui.Registry} (hvalid : Ui.isValidProjectName p = true)
    (hnames : registry.canonicalProjects.all Ui.isValidProjectName = true) :
    (registry.resolveProjectName host.opts host.env p).2 ≠ [] ∧
      host.Names p (registry.resolveProjectName host.opts host.env p).2 := by
  rw [Ui.Registry.resolveProjectName]
  split
  · rename_i canonical hfind
    have hcanonical := all_eq_true.mp hnames canonical (mem_of_find?_eq_some hfind)
    have hsame : canonical = p ∨ host.env.projectsReferToSameStores p canonical = true := by
      simpa using find?_some hfind
    split
    · exact ⟨ne_nil_of_valid hvalid, .inl rfl⟩
    · exact ⟨ne_nil_of_valid hcanonical, hsame⟩
  · exact ⟨ne_nil_of_valid hvalid, .inl rfl⟩

/-- A message reaches the server. -/
theorem stays_receive {m : ClientMessage} {rest : List ClientMessage} (hm : s.toServer = m :: rest) (now : ℕ)
    {registry : Ui.Registry} (hnames : registry.canonicalProjects.all Ui.isValidProjectName = true) :
    Stays host s ({ s with toServer := rest }.receive host now registry m) := by
  obtain ⟨hgen, -, hproject⟩ := receive_keeps host { s with toServer := rest } now registry m
  refine ⟨hgen, hproject, fun hs => ?_⟩
  have hrest : ∀ p, .subscribe p ∈ rest → p = s.project := fun p hp => hs.toServer p (hm ▸ mem_cons_of_mem m hp)
  cases m with
  | ping =>
    simp only [Socket.receive]
    split
    · exact ⟨hs.toClient, hrest, hs.filter⟩
    · split
      · refine ⟨fun hlive event hevent => ?_, hrest, hs.filter⟩
        rcases mem_append.mp hevent with hevent | hevent
        · exact hs.toClient hlive event hevent
        · cases mem_singleton.mp hevent
      · exact ⟨hs.toClient, hrest, hs.filter⟩
  | subscribe p =>
    have hp : p = s.project := hs.toServer p (hm ▸ mem_cons_self)
    simp only [Socket.receive]
    split
    · exact ⟨hs.toClient, hrest, hs.filter⟩
    · split
      · rename_i hvalid
        refine ⟨hs.toClient, hrest, fun c hc => ?_⟩
        obtain rfl := Option.some.inj hc
        exact hp ▸ resolved_names hvalid hnames
      · exact ⟨hs.toClient, hrest, hs.filter⟩

/-- What the hub emits reaches sockets of the project, and sockets without a filter. -/
theorem Isolated.broadcast (hs : w.Isolated host) {event : HubEvent} (h : Attended host w (.broadcast event)) :
    (w.broadcastToWsClients event).Isolated host := by
  refine ⟨fun s' hs' => ?_, fun s' hs' hgen hmounted => ?_, hs.pending, hs.timer, hs.calls⟩
  · obtain ⟨s, hmem, rfl⟩ := mem_map.mp hs'
    have hiso := hs.sockets s hmem
    split
    · rename_i htakes
      refine ⟨fun hlive e he => ?_, hiso.toServer, hiso.filter⟩
      rcases mem_append.mp he with he | he
      · exact hiso.toClient hlive e he
      · obtain rfl := ServerMessage.notification.inj (mem_singleton.mp he)
        simp only [Socket.takes, Bool.and_eq_true, decide_eq_true_eq] at htakes
        obtain ⟨hserver, hfilter⟩ := htakes
        cases hf : s.filter with
        | none => exact h s hmem hlive hserver hf
        | some c =>
          obtain ⟨hne, hnames⟩ := hiso.filter c hf
          simp only [hf, Bool.or_eq_true, decide_eq_true_eq] at hfilter
          exact hfilter.resolve_left hne ▸ hnames
    · exact hiso
  · obtain ⟨s, hmem, rfl⟩ := mem_map.mp hs'
    have hsame : (if s.takes event then { s with toClient := s.toClient ++ [.notification event] } else s).gen = s.gen ∧
        (if s.takes event then { s with toClient := s.toClient ++ [.notification event] } else s).project =
          s.project := by
      split
      · exact ⟨rfl, rfl⟩
      · exact ⟨rfl, rfl⟩
    rw [hsame.2]
    exact hs.current s hmem (hsame.1.symm.trans hgen) hmounted

/-- One event at either end, under the condition. -/
theorem Isolated.after (hs : w.Isolated host) (hone : w.Single) {e : WsEvent} (hattended : Attended host w e)
    (h : w.after host e = some w') : w'.Isolated host := by
  cases after_cases h with
  | render => exact hs.stay ⟨rfl, rfl, rfl, rfl, rfl⟩ (pointwise_stays host _) fun _ => id
  | effect project => exact hs.effect hone project
  | unmount => exact hs.unmount
  | reconnect k project hk =>
    exact hs.reconnect hone fun hmounted p hp hne => hattended hmounted p (hp ▸ hk) hne
  | bootstrap i b result hi hdone => exact hs.bootstrapped hi hdone result
  | reconnectTimer t ht =>
    have hdead := (hone.timer (ht ▸ rfl)).2.1
    have hsingle : Single { w with reconnectTimerRef := none } := hone.of_dead le_rfl rfl rfl hdead rfl
    have hoff : Isolated host { w with reconnectTimerRef := none } :=
      hs.stay ⟨rfl, rfl, rfl, rfl, rfl⟩ (pointwise_stays host _) fun t ht => (by cases ht)
    refine hoff.connect hsingle fun _ p hp _ => ?_
    exact (hs.timer t ht).trans hp
  | pingTimer => exact hs.ping
  | pongTimer i =>
    have hoff : Isolated host { w with pongTimerRef := none } :=
      hs.stay ⟨rfl, rfl, rfl, rfl, rfl⟩ (pointwise_stays host _) fun _ => id
    exact hoff.close i
  | opened i s hi hconnecting =>
    have hopened : (w.modifySocket i fun s => { s with readyState := .opened }).Isolated host := by
      refine hs.modifySocket fun t ht => ⟨rfl, rfl, fun hiso => ⟨fun _ => hiso.toClient ?_, hiso.toServer, hiso.filter⟩⟩
      obtain rfl := Option.some.inj (hi.symm.trans ht)
      rw [Socket.live, hconnecting]
      rfl
    exact hopened.onopen s
  | message i s m rest hi hopened hm =>
    refine hs.onmessage hi ?_ hm
    rw [Socket.live, hopened]
    rfl
  | closed i s hi => exact hs.onclose hi
  | error i s =>
    rw [World.onerror]
    split
    · exact hs
    · exact hs.close i
  | accept =>
    refine hs.modifySocket fun t _ => ⟨rfl, rfl, fun hiso => ⟨fun hlive event he => ?_, hiso.toServer, hiso.filter⟩⟩
    rcases mem_append.mp he with he | he
    · exact hiso.toClient hlive event he
    · cases mem_singleton.mp he
  | receive i now registry s m rest hi hvalid hm =>
    refine hs.modifySocket fun t ht => ?_
    obtain rfl := Option.some.inj (hi.symm.trans ht)
    exact stays_receive hm now hvalid
  | serverClosed =>
    exact hs.modifySocket fun t _ => ⟨rfl, rfl, fun hiso => ⟨hiso.toClient, hiso.toServer, hiso.filter⟩⟩
  | broadcast event => exact hs.broadcast hattended

theorem isolated_mounted (host : Host) (project : Option Text) : (World.mounted project).Isolated host := by
  have hsingle : Single { World.rendered project with project := project } :=
    ⟨fun b hb => (by cases hb), fun s hs => (by cases hs), nodup_nil, nodup_nil, fun b hb => (by cases hb),
      fun i s hs => (by cases hs), fun ht => (by cases ht), fun b hb => (by cases hb.1)⟩
  have hrendered : Isolated host { World.rendered project with project := project } :=
    ⟨fun s hs => (by cases hs), fun s hs => (by cases hs), fun b hb => (by cases hb.1), fun t ht => (by cases ht),
      fun c hc => (by cases hc)⟩
  exact hrendered.connect hsingle fun _ p hp _ => hp

end World

/-! ## The laws -/

/-- What every run keeps: one socket at most, and behind the unmount no callback and no timer. -/
structure SocketLaw (host : Host) (w : World) : Prop where
  one : ∀ (i j : ℕ) (s s' : Socket), w.sockets[i]? = some s → w.sockets[j]? = some s' → s.live = true → s'.live = true →
    i = j
  timer : w.mountedRef = false → w.reconnectTimerRef = none
  unmounted : w.mountedRef = false → ∀ e w', wsStep host w e w' → w'.mountedRef = false ∧ w'.calls = w.calls

/-- Every call of `onNotification` is with an event of the project that the hook was mounted for. -/
def CallLaw (host : Host) (w : World) : Prop := ∀ c ∈ w.calls, ∃ p, c.2 = some p ∧ host.Names p c.1.project

/-- The socket laws hold over all runs, and `onNotification` is called with events of the hook's project as long as no
event of another project is broadcast to a socket without a filter, and no `reconnect` of an older project is called. -/
theorem notifications_isolated (host : Host) (project : Option Text) :
    (∀ es w, Runs (wsStep host) (World.mounted project) es w → SocketLaw host w) ∧
      ∀ es w, Runs (Guarded (Attended host) (wsStep host)) (World.mounted project) es w → CallLaw host w := by
  refine ⟨fun es w hrun => ?_, fun es w hrun => ?_⟩
  · have hone : w.Single := hrun.invariant (fun _ _ _ hs he => hs.after he) (World.single_mounted project)
    have hquiet : w.Quiet := hrun.invariant (fun _ _ _ hs he => (hs.after he).1) (World.quiet_mounted project)
    refine ⟨fun i j s s' hi hj hs hs' => ?_, fun hunmounted => ?_, fun hunmounted e w' he => ?_⟩
    · have hi' := (hone.live i s hi hs).2.1
      have hj' := (hone.live j s' hj hs').2.1
      exact Option.some.inj (hi'.symm.trans hj')
    · cases htimer : w.reconnectTimerRef with
      | none => rfl
      | some t => exact absurd hunmounted (Bool.not_eq_false _ ▸ (hone.timer (htimer ▸ rfl)).1)
    · exact (hquiet.after he).2 hunmounted
  · have hinv : w.Single ∧ w.Isolated host :=
      hrun.invariant (I := fun w => w.Single ∧ w.Isolated host)
        (fun _ _ _ hs he => ⟨hs.1.after he.2, hs.2.after hs.1 he.1 he.2⟩)
        ⟨World.single_mounted project, World.isolated_mounted host project⟩
    exact hinv.2.calls

/-- A server of the project `a`, without other names of its stores. -/
def plainHost : Host where
  project := ['a']
  opts := ⟨Ui.isValidProjectName, id, ['a'], 4, by decide +kernel, by decide⟩
  env := ⟨false, fun _ => none, fun _ => true, fun _ => true, fun _ _ => false⟩

def plainRegistry : Ui.Registry := Ui.Registry.new plainHost.opts plainHost.env

/-- The socket for `a` is open at both ends; its subscribe is on the way. -/
def connecting : List WsEvent := [.bootstrap 0 .created, .accept 0 0, .opened 0]

def emitted (project : Text) : HubEvent := ⟨project, "project.changed".toList, [], none⟩

/-- The subscribe arrives before the broadcast. -/
def subscribed : List WsEvent := connecting ++ [.receive 0 0 plainRegistry]

/-- The hook unmounts behind the notification. -/
def notified : List WsEvent := [.message 0, .message 0, .unmount]

/-- A broadcast of `b` overtakes the subscribe. -/
def overtaken : List WsEvent := connecting ++ [.broadcast (emitted ['b']), .message 0, .message 0]

theorem notifications_isolated_one :
    ∃ w, Runs (wsStep plainHost) (World.mounted (some ['a']))
        (subscribed ++ .broadcast (emitted ['a']) :: notified) w ∧
      w.mountedRef = false ∧ w.calls.map (fun c => (c.1.project, c.2)) = [(['a'], some ['a'])] ∧
        SocketLaw plainHost w ∧ CallLaw plainHost w := by
  have hfirst : ((subscribed.foldlM (World.after plainHost) (World.mounted (some ['a']))).map fun w =>
      w.sockets.map Socket.project) = some [['a']] := by decide +kernel
  obtain ⟨v, hv, hprojects⟩ := Option.map_eq_some_iff.mp hfirst
  have hlast : (((subscribed ++ .broadcast (emitted ['a']) :: notified).foldlM (World.after plainHost)
      (World.mounted (some ['a']))).map fun w => (w.mountedRef, w.calls.map fun c => (c.1.project, c.2))) =
        some (false, [(['a'], some ['a'])]) := by decide +kernel
  obtain ⟨w, hw, hends⟩ := Option.map_eq_some_iff.mp hlast
  obtain ⟨hunmounted, hcalls⟩ := Prod.mk.inj hends
  have hrun : Runs (wsStep plainHost) (World.mounted (some ['a'])) _ w := .of_foldlM hw
  have hguarded : Runs (Guarded (Attended plainHost) (wsStep plainHost)) (World.mounted (some ['a']))
      (subscribed ++ .broadcast (emitted ['a']) :: notified) w := by
    rw [foldlM_append, hv] at hw
    have hsubscribed : Runs (wsStep plainHost) (World.mounted (some ['a'])) subscribed v := .of_foldlM hv
    have hrest : Runs (wsStep plainHost) v (.broadcast (emitted ['a']) :: notified) w := .of_foldlM hw
    cases hrest with
    | cons hbroadcast hnotified =>
      refine (hsubscribed.guarded fun e he s => ?_).append
        (.cons ⟨fun s hs _ _ _ => ?_, hbroadcast⟩ (hnotified.guarded fun e he s => ?_))
      · simp only [subscribed, connecting, cons_append, nil_append, mem_cons, not_mem_nil,
          or_false] at he
        rcases he with rfl | rfl | rfl | rfl <;> trivial
      · have hproject : s.project ∈ [['a']] := hprojects ▸ mem_map_of_mem hs
        exact .inl (mem_singleton.mp hproject).symm
      · simp only [notified, mem_cons, not_mem_nil, or_false] at he
        rcases he with rfl | rfl | rfl <;> trivial
  obtain ⟨hsockets, hisolated⟩ := notifications_isolated plainHost (some ['a'])
  exact ⟨w, hrun, hunmounted, hcalls, hsockets _ w hrun, hisolated _ w hguarded⟩

/-- The hook for `a` calls `onNotification` with an event of `b`. -/
theorem notification_overtakes :
    ¬∀ (host : Host) (project : Option Text) (es : List WsEvent) (w : World),
      Runs (wsStep host) (World.mounted project) es w → CallLaw host w := by
  intro hall
  have hcalls : ((overtaken.foldlM (World.after plainHost) (World.mounted (some ['a']))).map fun w =>
      w.calls.map fun c => (c.1.project, c.2)) = some [(['b'], some ['a'])] := by decide +kernel
  obtain ⟨w, hw, hcalls⟩ := Option.map_eq_some_iff.mp hcalls
  obtain ⟨c, hc, hpair⟩ := map_eq_singleton_iff.mp hcalls
  obtain ⟨p, hp, hnames⟩ := hall plainHost (some ['a']) overtaken w (.of_foldlM hw) c (hc ▸ mem_singleton_self c)
  obtain ⟨hproject, hmounted⟩ := Prod.mk.inj hpair
  obtain rfl := Option.some.inj (hmounted.symm.trans hp)
  rcases hproject ▸ hnames with hsame | hstores
  · exact absurd hsame (by decide)
  · cases hstores

end Ariad.Notifications
