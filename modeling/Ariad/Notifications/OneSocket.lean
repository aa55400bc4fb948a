import Ariad.Notifications.WebSocket
import Ariad.Relational.Positions

/-!
# The sockets of the hook

* `World.Single` — at most one socket is open or connecting, and what would open another one is not under way.
* `World.Quiet` — of a hook that is not mounted, nothing calls `onNotification`, and nothing mounts it again.
-/

namespace Ariad.Notifications

open List Nat

variable {w w' : World} {s s' : Socket} {i j : ℕ} {p q : Text} {project : Option Text} {b : Bootstrap} {host : Host}

/-! ## What an event does -/

/-- What one event does, and when it can happen. -/
inductive After (host : Host) (w : World) : WsEvent → World → Prop where
  | render (project : Option Text) (hmounted : w.mountedRef = true) :
    After host w (.render project) { w with renders := w.renders ++ [project], effectDue := w.project ≠ project }
  | effect (project : Option Text) (hdue : w.effectDue = true) : After host w .effect (w.cleanUp.runEffect project)
  | unmount : After host w .unmount { w.cleanUp with effectDue := false }
  | reconnect (k : ℕ) (project : Option Text) (hk : w.renders[k]? = some project) :
    After host w (.reconnect k) (w.reconnect project)
  | bootstrap (i : ℕ) (b : Bootstrap) (result : BootstrapResult) (hi : w.bootstraps[i]? = some b)
      (hdone : b.done = false) :
    After host w (.bootstrap i result)
      (World.bootstrapped { w with bootstraps := w.bootstraps.modify i fun b => { b with done := true } } b result)
  | reconnectTimer (t : Text × ℕ) (ht : w.reconnectTimerRef = some t) :
    After host w .reconnectTimer (({ w with reconnectTimerRef := none } : World).connect (some t.1))
  | pingTimer : After host w .pingTimer w.ping
  | pongTimer (i : ℕ) :
    After host w .pongTimer (({ w with pongTimerRef := none } : World).modifySocket i Socket.close)
  | opened (i : ℕ) (s : Socket) (hi : w.sockets[i]? = some s) (hconnecting : s.readyState = .connecting) :
    After host w (.opened i) ((w.modifySocket i fun s => { s with readyState := .opened }).onopen i s)
  | message (i : ℕ) (s : Socket) (m : ServerMessage) (rest : List ServerMessage) (hi : w.sockets[i]? = some s)
      (hopened : s.readyState = .opened) (hm : s.toClient = m :: rest) :
    After host w (.message i) ((w.modifySocket i fun s => { s with toClient := rest }).onmessage s m)
  | closed (i : ℕ) (s : Socket) (hi : w.sockets[i]? = some s) :
    After host w (.closed i) ((w.modifySocket i fun s => { s with readyState := .closed }).onclose s)
  | error (i : ℕ) (s : Socket) : After host w (.error i) (w.onerror i s)
  | accept (i now : ℕ) : After host w (.accept i now) (w.modifySocket i fun s => s.accept host now)
  | receive (i now : ℕ) (registry : Ui.Registry) (s : Socket) (m : ClientMessage) (rest : List ClientMessage)
      (hi : w.sockets[i]? = some s) (hvalid : registry.canonicalProjects.all Ui.isValidProjectName = true)
      (hm : s.toServer = m :: rest) :
    After host w (.receive i now registry)
      (w.modifySocket i fun s => { s with toServer := rest }.receive host now registry m)
  | serverClosed (i : ℕ) : After host w (.serverClosed i) (w.modifySocket i fun s => { s with server := .closed })
  | broadcast (event : HubEvent) : After host w (.broadcast event) (w.broadcastToWsClients event)

theorem after_cases {e : WsEvent} (h : w.after host e = some w') : After host w e w' := by
  cases e with
  | reconnectTimer =>
    obtain ⟨t, ht, rfl⟩ := Option.map_eq_some_iff.mp h
    exact .reconnectTimer t ht
  | pongTimer =>
    obtain ⟨i, -, rfl⟩ := Option.map_eq_some_iff.mp h
    exact .pongTimer i
  | _ => grind [World.after, After]

/-! ## One socket -/

/-- The bootstrap of the newest `connect` is under way. -/
def World.Pending (w : World) (b : Bootstrap) : Prop := b ∈ w.bootstraps ∧ b.done = false ∧ b.gen = w.wsGenRef

/-- A live socket is that of the ref and of the newest generation, and while there is one, neither a timer nor a
bootstrap is about to open another one. -/
structure World.Single (w : World) : Prop where
  bootstrapLe : ∀ b ∈ w.bootstraps, b.gen ≤ w.wsGenRef
  socketLe : ∀ s ∈ w.sockets, s.gen ≤ w.wsGenRef
  distinct : (w.bootstraps.map Bootstrap.gen).Nodup
  gens : (w.sockets.map Socket.gen).Nodup
  waiting : ∀ b ∈ w.bootstraps, b.done = false → ∀ s ∈ w.sockets, s.gen ≠ b.gen
  live : ∀ i s, w.sockets[i]? = some s → s.live = true → s.gen = w.wsGenRef ∧ w.wsRef = some i ∧ w.mountedRef = true
  timer : w.reconnectTimerRef.isSome → w.mountedRef = true ∧ (∀ s ∈ w.sockets, s.live = false) ∧ ∀ b, ¬w.Pending b
  pending : ∀ b, w.Pending b → ∀ s ∈ w.sockets, s.live = false

namespace World

/-- A socket is of the same generation as before, and no more live. -/
def Fades (s s' : Socket) : Prop := s'.gen = s.gen ∧ (s'.live = true → s.live = true)

/-- What `Single` reads of a world, with sockets that fade and a timer that is disarmed at most. -/
theorem Single.fade (hs : w.Single) (hgen : w'.wsGenRef = w.wsGenRef) (hmounted : w'.mountedRef = w.mountedRef)
    (href : w'.wsRef = w.wsRef) (hboot : w'.bootstraps = w.bootstraps)
    (hgens : w'.sockets.map Socket.gen = w.sockets.map Socket.gen) (hfade : Positions.Pointwise Fades w.sockets w'.sockets)
    (htimer : w'.reconnectTimerRef.isSome → w.reconnectTimerRef.isSome) : w'.Single := by
  have hdead (hall : ∀ s ∈ w.sockets, s.live = false) : ∀ s ∈ w'.sockets, s.live = false := by
    intro s' hs'
    obtain ⟨s, hsmem, -, hlive⟩ := hfade.exists_mem hs'
    exact Bool.eq_false_iff.mpr fun h => Bool.false_ne_true ((hall s hsmem).symm.trans (hlive h))
  have hpending {b : Bootstrap} (h : w'.Pending b) : w.Pending b := ⟨hboot ▸ h.1, h.2.1, hgen ▸ h.2.2⟩
  refine ⟨?_, fun s' hs' => ?_, hboot ▸ hs.distinct, hgens ▸ hs.gens, fun b hb hdone s' hs' => ?_, fun i s' hs' hlive => ?_,
    fun h => ?_, fun b hb => hdead (hs.pending b (hpending hb))⟩
  · rw [hboot, hgen]
    exact hs.bootstrapLe
  · obtain ⟨s, hsmem, hsgen, -⟩ := hfade.exists_mem hs'
    rw [hsgen, hgen]
    exact hs.socketLe s hsmem
  · obtain ⟨s, hsmem, hsgen, -⟩ := hfade.exists_mem hs'
    rw [hsgen]
    exact hs.waiting b (hboot ▸ hb) hdone s hsmem
  · obtain ⟨s, hsi, hsgen, hslive⟩ := hfade i s' hs'
    obtain ⟨h₁, h₂, h₃⟩ := hs.live i s hsi (hslive hlive)
    exact ⟨hsgen.trans (h₁.trans hgen.symm), href.trans h₂, hmounted.trans h₃⟩
  · obtain ⟨h₁, h₂, h₃⟩ := hs.timer (htimer h)
    exact ⟨hmounted.trans h₁, hdead h₂, fun b hb => h₃ b (hpending hb)⟩

theorem Single.modifySocket (hs : w.Single) {f : Socket → Socket} (hgen : ∀ s, (f s).gen = s.gen)
    (hf : ∀ s, w.sockets[i]? = some s → (f s).live = true → s.live = true) : (w.modifySocket i f).Single :=
  hs.fade rfl rfl rfl rfl (Positions.map_modify hgen)
    (Positions.pointwise_modify (fun _ => ⟨rfl, id⟩) fun s hi => ⟨hgen s, hf s hi⟩) id

theorem close_spec (s : Socket) : s.close.gen = s.gen ∧ s.close.live = false ∧ s.close.project = s.project := by
  rw [Socket.close]
  by_cases h : s.live = true
  · rw [if_pos h]
    exact ⟨rfl, rfl, rfl⟩
  · rw [if_neg h]
    exact ⟨rfl, Bool.eq_false_iff.mpr h, rfl⟩

section

variable (hs : w.Single)
include hs

theorem Single.close (i : ℕ) : (w.modifySocket i Socket.close).Single :=
  hs.modifySocket (fun s => (close_spec s).1) fun s _ h => absurd ((close_spec s).2.1.symm.trans h) Bool.false_ne_true

/-- Closing the socket of the ref leaves none that is live. -/
theorem Single.closeCurrent :
    w.closeCurrent.Single ∧ ∀ s ∈ w.closeCurrent.sockets, s.live = false := by
  cases href : w.wsRef with
  | none =>
    have heq : w.closeCurrent.sockets = w.sockets := by simp only [World.closeCurrent, href]
    refine ⟨hs.fade rfl rfl rfl rfl (congrArg _ heq) (fun _ s hi => ⟨s, heq ▸ hi, rfl, id⟩) id, fun s hmem => ?_⟩
    refine Bool.eq_false_iff.mpr fun hlive => ?_
    obtain ⟨j, hj⟩ := mem_iff_getElem?.mp (heq ▸ hmem)
    exact nomatch href.symm.trans (hs.live j s hj hlive).2.1
  | some i =>
    have heq : w.closeCurrent.sockets = (w.modifySocket i Socket.close).sockets := by
      simp only [World.closeCurrent, href, World.modifySocket]
    refine ⟨(hs.close i).fade rfl rfl rfl rfl (congrArg _ heq) (fun _ s hi => ⟨s, heq ▸ hi, rfl, id⟩) id,
      fun s hmem => ?_⟩
    obtain ⟨j, s₀, hj, ⟨hne, rfl⟩ | ⟨-, rfl⟩⟩ := Positions.mem_modify (heq ▸ hmem)
    · refine Bool.eq_false_iff.mpr fun hlive => hne ?_
      exact Option.some.inj ((hs.live j s hj hlive).2.1.symm.trans href)
    · exact (close_spec s₀).2.1

/-- `connect` while no socket is live and no timer is armed. -/
theorem Single.connect (hdead : ∀ s ∈ w.sockets, s.live = false)
    (htimer : w.reconnectTimerRef = none) (project : Option Text) : (w.connect project).Single := by
  cases project with
  | none => exact hs
  | some p =>
    simp only [World.connect]
    split
    · exact hs
    · refine ⟨fun b hb => ?_, fun s hmem => le_succ_of_le (hs.socketLe s hmem), ?_, hs.gens,
        fun b hb hdone s hmem => ?_, fun i s hi hlive => ?_, fun h => absurd h (by simp [htimer]), fun _ _ => hdead⟩
      · rcases mem_append.mp hb with hb | hb
        · exact le_succ_of_le (hs.bootstrapLe b hb)
        · obtain rfl := mem_singleton.mp hb
          exact le_rfl
      · exact Positions.nodup_append hs.distinct fun b hb => (lt_succ_of_le (hs.bootstrapLe b hb)).ne
      · rcases mem_append.mp hb with hb | hb
        · exact hs.waiting b hb hdone s hmem
        · obtain rfl := mem_singleton.mp hb
          exact (lt_succ_of_le (hs.socketLe s hmem)).ne
      · exact absurd ((hdead s (mem_of_getElem? hi)).symm.trans hlive) Bool.false_ne_true

/-- A timer is armed while nothing is live or pending. -/
theorem Single.scheduleReconnect (hdead : ∀ s ∈ w.sockets, s.live = false)
    (hidle : ∀ b, ¬w.Pending b) (p : Text) : (w.scheduleReconnect p).Single := by
  rw [World.scheduleReconnect]
  split
  · exact hs
  · rename_i hnot
    have hmounted : w.mountedRef = true := by simpa using hnot
    exact ⟨hs.bootstrapLe, hs.socketLe, hs.distinct, hs.gens, hs.waiting, hs.live, fun _ => ⟨hmounted, hdead, hidle⟩,
      fun b hb => absurd hb (hidle b)⟩

/-- A world without live sockets and timers, of a generation that is not older. -/
theorem Single.of_dead (hle : w.wsGenRef ≤ w'.wsGenRef) (hboot : w'.bootstraps = w.bootstraps)
    (hsockets : w'.sockets = w.sockets) (hdead : ∀ s ∈ w.sockets, s.live = false)
    (htimer : w'.reconnectTimerRef = none) : w'.Single := by
  refine ⟨fun b hb => ?_, fun s hmem => ?_, hboot ▸ hs.distinct, hsockets ▸ hs.gens, fun b hb hdone s hmem => ?_,
    fun i s hi hlive => ?_, fun h => absurd h (by simp [htimer]), fun _ _ => hsockets ▸ hdead⟩
  · exact (hs.bootstrapLe b (hboot ▸ hb)).trans hle
  · exact (hs.socketLe s (hsockets ▸ hmem)).trans hle
  · exact hs.waiting b (hboot ▸ hb) hdone s (hsockets ▸ hmem)
  · exact absurd ((hdead s (hsockets ▸ mem_of_getElem? hi)).symm.trans hlive) Bool.false_ne_true

/-- Behind the cleanup nothing is live. -/
theorem Single.cleanUp : w.cleanUp.Single ∧ ∀ s ∈ w.cleanUp.sockets, s.live = false := by
  obtain ⟨hclose, hdead⟩ := hs.closeCurrent
  exact ⟨hclose.of_dead (le_succ _) rfl rfl hdead rfl, hdead⟩

theorem Single.runEffect (hdead : ∀ s ∈ w.sockets, s.live = false)
    (htimer : w.reconnectTimerRef = none) (project : Option Text) : (w.runEffect project).Single := by
  rw [World.runEffect]
  have hmounted : Single
      { w with mountedRef := true, project := project, effectDue := false, connected := false } :=
    hs.of_dead le_rfl rfl rfl hdead htimer
  exact hmounted.connect hdead htimer project

theorem Single.reconnect (project : Option Text) : (w.reconnect project).Single := by
  have hoff : Single { w with reconnectAttemptRef := 0, reconnectTimerRef := none } :=
    hs.fade rfl rfl rfl rfl rfl (fun _ s hi => ⟨s, hi, rfl, id⟩) fun h => absurd h Bool.false_ne_true
  obtain ⟨hclose, hdead⟩ := hoff.closeCurrent
  exact hclose.connect hdead rfl project

/-- A bootstrap has come back. Only the newest one counts, and then nothing else is under way. -/
theorem Single.bootstrapped (hi : w.bootstraps[i]? = some b) (hdone : b.done = false)
    (result : BootstrapResult) : Single (World.bootstrapped
      { w with bootstraps := w.bootstraps.modify i fun b => { b with done := true } } b result) := by
  have hmem : b ∈ w.bootstraps := mem_of_getElem? hi
  have hmark {c : Bootstrap} (hc : c ∈ w.bootstraps.modify i fun b => { b with done := true }) (hcdone : c.done = false) :
      c ∈ w.bootstraps ∧ c.gen ≠ b.gen := by
    obtain ⟨j, d, hj, ⟨hne, rfl⟩ | ⟨-, rfl⟩⟩ := Positions.mem_modify hc
    · exact ⟨mem_of_getElem? hj, fun heq => hne (Positions.index_eq hs.distinct hj hi heq)⟩
    · exact nomatch hcdone
  have hmarked : Single { w with bootstraps := w.bootstraps.modify i fun b => { b with done := true } } := by
    refine ⟨fun c hc => ?_, hs.socketLe, ?_, hs.gens, fun c hc hcdone => hs.waiting c (hmark hc hcdone).1 hcdone, hs.live,
      fun h => ?_, fun c hc => hs.pending c ⟨(hmark hc.1 hc.2.1).1, hc.2⟩⟩
    · obtain ⟨j, d, hj, ⟨-, rfl⟩ | ⟨-, rfl⟩⟩ := Positions.mem_modify hc
      · exact hs.bootstrapLe c (mem_of_getElem? hj)
      · exact hs.bootstrapLe d (mem_of_getElem? hj)
    · have hgens : (w.bootstraps.modify i fun b => { b with done := true }).map Bootstrap.gen =
          w.bootstraps.map Bootstrap.gen := Positions.map_modify fun _ => rfl
      exact hgens ▸ hs.distinct
    · obtain ⟨h₁, h₂, h₃⟩ := hs.timer h
      exact ⟨h₁, h₂, fun c hc => h₃ c ⟨(hmark hc.1 hc.2.1).1, hc.2⟩⟩
  simp only [World.bootstrapped]
  split
  · exact hmarked
  · rename_i hcurrent
    simp only [ne_eq, Bool.or_eq_true, decide_eq_true_eq, Bool.not_eq_true', not_or, not_not, Bool.not_eq_false]
      at hcurrent
    obtain ⟨hgen, hmounted⟩ := hcurrent
    have hpending : w.Pending b := ⟨hmem, hdone, hgen.symm⟩
    have hdead := hs.pending b hpending
    have hidle : ∀ c, ¬Pending { w with bootstraps := w.bootstraps.modify i fun b => { b with done := true } } c :=
      fun c hc => (hmark hc.1 hc.2.1).2 (hc.2.2.trans hgen)
    cases result with
    | failed => exact hmarked.scheduleReconnect hdead hidle b.project
    | refused => exact hmarked.scheduleReconnect hdead hidle b.project
    | created =>
      refine ⟨hmarked.bootstrapLe, fun s hsmem => ?_, hmarked.distinct, ?_, fun c hc hcdone s hsmem => ?_,
        fun j s hj hlive => ?_, fun h => ?_, fun c hc => absurd hc (hidle c)⟩
      · rcases mem_append.mp hsmem with hsmem | hsmem
        · exact hs.socketLe s hsmem
        · obtain rfl := mem_singleton.mp hsmem
          exact hs.bootstrapLe b hmem
      · exact Positions.nodup_append hs.gens (hs.waiting b hmem hdone)
      · rcases mem_append.mp hsmem with hsmem | hsmem
        · exact hs.waiting c (hmark hc hcdone).1 hcdone s hsmem
        · obtain rfl := mem_singleton.mp hsmem
          exact (hmark hc hcdone).2.symm
      · dsimp only at hj
        rw [getElem?_append] at hj
        split at hj
        · exact absurd ((hdead s (mem_of_getElem? hj)).symm.trans hlive) Bool.false_ne_true
        · rename_i hlt
          obtain ⟨hindex, hs'⟩ := List.getElem?_eq_some_iff.mp hj
          have hzero : j - w.sockets.length = 0 := by simpa using hindex
          have hj' : j = w.sockets.length := by omega
          simp only [hzero, getElem_cons_zero] at hs'
          subst hs'
          exact ⟨hgen.symm, congrArg some hj'.symm, hmounted⟩
      · exact absurd hpending ((hs.timer h).2.2 b)

/-- A socket is closed. If it was of the newest generation, nothing is live any more. -/
theorem Single.onclose (hi : w.sockets[i]? = some s) :
    ((w.modifySocket i fun s => { s with readyState := .closed }).onclose s).Single := by
  have hclosed : (w.modifySocket i fun s => { s with readyState := .closed }).Single :=
    hs.modifySocket (fun _ => rfl) fun _ _ h => nomatch h
  rw [World.onclose]
  split
  · exact hclosed
  · rename_i hcurrent
    have hgen : w.wsGenRef = s.gen := by
      simp only [stale, ne_eq, Bool.or_eq_true, decide_eq_true_eq, not_or, not_not] at hcurrent
      exact hcurrent.1
    have hdead : ∀ t ∈ (w.modifySocket i fun s => { s with readyState := .closed }).sockets, t.live = false := by
      intro t ht
      obtain ⟨j, t₀, hj, ⟨hne, rfl⟩ | ⟨-, rfl⟩⟩ := Positions.mem_modify ht
      · refine Bool.eq_false_iff.mpr fun hlive => hne ?_
        exact Positions.index_eq hs.gens hj hi ((hs.live j t hj hlive).1.trans hgen)
      · rfl
    have hidle : ∀ b, ¬(w.modifySocket i fun s => { s with readyState := .closed }).Pending b :=
      fun b hb => hs.waiting b hb.1 hb.2.1 s (mem_of_getElem? hi) (hgen.symm.trans hb.2.2.symm)
    have hstopped : Single
        ({ w.modifySocket i fun s => { s with readyState := .closed } with connected := false } : World).stopPing :=
      hclosed.fade rfl rfl rfl rfl rfl (fun _ s hi => ⟨s, hi, rfl, id⟩) id
    exact hstopped.scheduleReconnect hdead hidle s.project

theorem Single.onopen (s : Socket) : (w.onopen i s).Single := by
  rw [World.onopen]
  split
  · exact hs
  · have hsent : (w.modifySocket i fun s => { s with toServer := s.toServer ++ [.subscribe s.project] }).Single :=
      hs.modifySocket (fun _ => rfl) fun _ _ h => h
    exact hsent.fade rfl rfl rfl rfl rfl (fun _ s hi => ⟨s, hi, rfl, id⟩) id

theorem Single.onmessage (s : Socket) (m : ServerMessage) : (w.onmessage s m).Single := by
  simp only [World.onmessage]
  split
  · exact hs
  · cases m with
    | connected project => exact hs
    | pong => exact hs.fade rfl rfl rfl rfl rfl (fun _ s hi => ⟨s, hi, rfl, id⟩) id
    | notification event => exact hs.fade rfl rfl rfl rfl rfl (fun _ s hi => ⟨s, hi, rfl, id⟩) id

theorem Single.onerror (i : ℕ) (s : Socket) : (w.onerror i s).Single := by
  rw [World.onerror]
  split
  · exact hs
  · exact hs.close i

theorem Single.ping : w.ping.Single := by
  have hping (i : ℕ) : (w.modifySocket i fun s => { s with toServer := s.toServer ++ [.ping] }).Single :=
    hs.modifySocket (fun _ => rfl) fun _ _ h => h
  rw [World.ping]
  split
  · exact hs
  · split
    · exact hs
    · split
      · exact hs
      · exact (hping _).fade rfl rfl rfl rfl rfl (fun _ s hi => ⟨s, hi, rfl, id⟩) id

end

theorem receive_keeps (host : Host) (s : Socket) (now : ℕ) (registry : Ui.Registry) (m : ClientMessage) :
    (s.receive host now registry m).gen = s.gen ∧ (s.receive host now registry m).readyState = s.readyState ∧
      (s.receive host now registry m).project = s.project := by
  cases m with
  | ping =>
    simp only [Socket.receive]
    split
    · exact ⟨rfl, rfl, rfl⟩
    · split
      · exact ⟨rfl, rfl, rfl⟩
      · exact ⟨rfl, rfl, rfl⟩
  | subscribe p =>
    simp only [Socket.receive]
    split
    · exact ⟨rfl, rfl, rfl⟩
    · split
      · exact ⟨rfl, rfl, rfl⟩
      · exact ⟨rfl, rfl, rfl⟩

theorem Single.broadcast (hs : w.Single) (event : HubEvent) : (w.broadcastToWsClients event).Single := by
  have hsent (s : Socket) :
      Fades s (if s.takes event then { s with toClient := s.toClient ++ [.notification event] } else s) ∧
        (if s.takes event then { s with toClient := s.toClient ++ [.notification event] } else s).gen = s.gen := by
    split
    · exact ⟨⟨rfl, id⟩, rfl⟩
    · exact ⟨⟨rfl, id⟩, rfl⟩
  refine hs.fade rfl rfl rfl rfl ?_ (Positions.pointwise_map fun s => (hsent s).1) id
  rw [broadcastToWsClients, map_map]
  exact map_congr_left fun s _ => (hsent s).2

/-- Every event keeps the hook at one socket. -/
theorem Single.after (hs : w.Single) {e : WsEvent} (h : w.after host e = some w') : w'.Single := by
  cases after_cases h with
  | render => exact hs.fade rfl rfl rfl rfl rfl (fun _ s hi => ⟨s, hi, rfl, id⟩) id
  | effect project => exact hs.cleanUp.1.runEffect hs.cleanUp.2 rfl project
  | unmount => exact hs.cleanUp.1.fade rfl rfl rfl rfl rfl (fun _ s hi => ⟨s, hi, rfl, id⟩) id
  | reconnect _ project => exact hs.reconnect project
  | bootstrap i b result hi hdone => exact hs.bootstrapped hi hdone result
  | reconnectTimer t ht =>
    have hdead := (hs.timer (ht ▸ rfl)).2.1
    have hoff : Single { w with reconnectTimerRef := none } := hs.of_dead le_rfl rfl rfl hdead rfl
    exact hoff.connect hdead rfl (some t.1)
  | pingTimer => exact hs.ping
  | pongTimer i =>
    have hoff : Single { w with pongTimerRef := none } :=
      hs.fade rfl rfl rfl rfl rfl (fun _ s hi => ⟨s, hi, rfl, id⟩) id
    exact hoff.close i
  | opened i s hi hconnecting =>
    have hopened : (w.modifySocket i fun s => { s with readyState := .opened }).Single := by
      refine hs.modifySocket (fun _ => rfl) fun t ht _ => ?_
      obtain rfl := Option.some.inj (hi.symm.trans ht)
      rw [Socket.live, hconnecting]
      rfl
    exact hopened.onopen s
  | message i s m rest =>
    have htaken : (w.modifySocket i fun s => { s with toClient := rest }).Single :=
      hs.modifySocket (fun _ => rfl) fun _ _ h => h
    exact htaken.onmessage s m
  | closed i s hi => exact hs.onclose hi
  | error i s => exact hs.onerror i s
  | accept => exact hs.modifySocket (fun _ => rfl) fun _ _ h => h
  | receive i now registry s m rest =>
    have hkeeps (s : Socket) := receive_keeps host { s with toServer := rest } now registry m
    refine hs.modifySocket (fun s => (hkeeps s).1) fun s _ hlive => ?_
    rw [Socket.live, (hkeeps s).2.1] at hlive
    exact hlive
  | serverClosed => exact hs.modifySocket (fun _ => rfl) fun _ _ h => h
  | broadcast event => exact hs.broadcast event

theorem single_mounted (project : Option Text) : (World.mounted project).Single := by
  have hrendered : (World.rendered project).Single :=
    ⟨nofun, nofun, nodup_nil, nodup_nil, nofun, nofun, nofun, fun b hb => nomatch hb.1⟩
  exact hrendered.runEffect nofun rfl project

/-! ## After unmount -/

/-- No effect is due of a hook that is not mounted. -/
def Quiet (w : World) : Prop := w.mountedRef = false → w.effectDue = false

/-- An event that neither mounts nor unmounts the hook, and that calls nothing while it is not mounted. -/
structure Frame (w w' : World) : Prop where
  mountedRef : w'.mountedRef = w.mountedRef
  effectDue : w'.effectDue = w.effectDue
  calls : w.mountedRef = false → w'.calls = w.calls

theorem Frame.quiet (h : Frame w w') (hs : w.Quiet) :
    w'.Quiet ∧ (w.mountedRef = false → w'.mountedRef = false ∧ w'.calls = w.calls) := by
  refine ⟨fun hunmounted => ?_, fun hunmounted => ⟨h.mountedRef.trans hunmounted, h.calls hunmounted⟩⟩
  exact h.effectDue.trans (hs (h.mountedRef.symm.trans hunmounted))

theorem stale_eq_false (h : ¬w.stale s = true) : s.gen = w.wsGenRef ∧ w.mountedRef = true := by
  simp only [stale, ne_eq, Bool.or_eq_true, decide_eq_true_eq, Bool.not_eq_true', not_or, not_not, Bool.not_eq_false] at h
  exact ⟨h.1.symm, h.2⟩

theorem frame_connect (w : World) (project : Option Text) : Frame w (w.connect project) := by
  cases project with
  | none => exact ⟨rfl, rfl, fun _ => rfl⟩
  | some p =>
    simp only [World.connect]
    split
    · exact ⟨rfl, rfl, fun _ => rfl⟩
    · exact ⟨rfl, rfl, fun _ => rfl⟩

theorem frame_scheduleReconnect (w : World) (p : Text) : Frame w (w.scheduleReconnect p) := by
  rw [World.scheduleReconnect]
  split
  · exact ⟨rfl, rfl, fun _ => rfl⟩
  · exact ⟨rfl, rfl, fun _ => rfl⟩

theorem frame_bootstrapped (w : World) (b : Bootstrap) (result : BootstrapResult) :
    Frame w (w.bootstrapped b result) := by
  simp only [World.bootstrapped]
  split
  · exact ⟨rfl, rfl, fun _ => rfl⟩
  · cases result with
    | failed => exact frame_scheduleReconnect w b.project
    | refused => exact frame_scheduleReconnect w b.project
    | created => exact ⟨rfl, rfl, fun _ => rfl⟩

theorem frame_onopen (w : World) (i : ℕ) (s : Socket) : Frame w (w.onopen i s) := by
  rw [World.onopen]
  split
  · exact ⟨rfl, rfl, fun _ => rfl⟩
  · exact ⟨rfl, rfl, fun _ => rfl⟩

theorem frame_onmessage (w : World) (s : Socket) (m : ServerMessage) : Frame w (w.onmessage s m) := by
  simp only [World.onmessage]
  split
  · exact ⟨rfl, rfl, fun _ => rfl⟩
  · rename_i hstale
    have hmounted := (stale_eq_false hstale).2
    cases m with
    | connected _ => exact ⟨rfl, rfl, fun _ => rfl⟩
    | pong => exact ⟨rfl, rfl, fun _ => rfl⟩
    | notification event =>
      exact ⟨rfl, rfl, fun hunmounted => absurd hunmounted (Bool.not_eq_false _ ▸ hmounted)⟩

theorem frame_onclose (w : World) (s : Socket) : Frame w (w.onclose s) := by
  rw [World.onclose]
  split
  · exact ⟨rfl, rfl, fun _ => rfl⟩
  · obtain ⟨hmounted, hdue, hcalls⟩ := frame_scheduleReconnect ({ w with connected := false } : World).stopPing s.project
    exact ⟨hmounted, hdue, hcalls⟩

theorem frame_onerror (w : World) (i : ℕ) (s : Socket) : Frame w (w.onerror i s) := by
  rw [World.onerror]
  split
  · exact ⟨rfl, rfl, fun _ => rfl⟩
  · exact ⟨rfl, rfl, fun _ => rfl⟩

theorem frame_ping (w : World) : Frame w w.ping := by
  rw [World.ping]
  split
  · exact ⟨rfl, rfl, fun _ => rfl⟩
  · split
    · exact ⟨rfl, rfl, fun _ => rfl⟩
    · split
      · exact ⟨rfl, rfl, fun _ => rfl⟩
      · exact ⟨rfl, rfl, fun _ => rfl⟩

theorem mountedRef_runEffect (w : World) (project : Option Text) : (w.runEffect project).mountedRef = true :=
  (frame_connect _ project).mountedRef

/-- Of a hook that is not mounted, nothing calls `onNotification`, and nothing mounts it again. -/
theorem Quiet.after (hs : w.Quiet) {e : WsEvent} (h : w.after host e = some w') :
    w'.Quiet ∧ (w.mountedRef = false → w'.mountedRef = false ∧ w'.calls = w.calls) := by
  have hframe {v : World} (h : Frame v w') (hmounted : v.mountedRef = w.mountedRef) (hdue : v.effectDue = w.effectDue)
      (hcalls : v.calls = w.calls) :
      w'.Quiet ∧ (w.mountedRef = false → w'.mountedRef = false ∧ w'.calls = w.calls) :=
    Frame.quiet ⟨h.mountedRef.trans hmounted, h.effectDue.trans hdue,
      fun hunmounted => (h.calls (hmounted.trans hunmounted)).trans hcalls⟩ hs
  cases after_cases h with
  | render project hmounted =>
    exact ⟨fun hunmounted => absurd hunmounted (Bool.not_eq_false _ ▸ hmounted),
      fun hunmounted => absurd hunmounted (Bool.not_eq_false _ ▸ hmounted)⟩
  | effect project hdue =>
    have hmounted := mountedRef_runEffect w.cleanUp project
    refine ⟨fun hunmounted => absurd hunmounted (Bool.not_eq_false _ ▸ hmounted), fun hunmounted => ?_⟩
    exact absurd (hs hunmounted) (Bool.not_eq_false _ ▸ hdue)
  | unmount => exact ⟨fun _ => rfl, fun _ => ⟨rfl, rfl⟩⟩
  | reconnect => exact hframe (frame_connect _ _) rfl rfl rfl
  | bootstrap => exact hframe (frame_bootstrapped _ _ _) rfl rfl rfl
  | reconnectTimer => exact hframe (frame_connect _ _) rfl rfl rfl
  | pingTimer => exact (frame_ping w).quiet hs
  | opened => exact hframe (frame_onopen _ _ _) rfl rfl rfl
  | message => exact hframe (frame_onmessage _ _ _) rfl rfl rfl
  | closed => exact hframe (frame_onclose _ _) rfl rfl rfl
  | error => exact (frame_onerror w _ _).quiet hs
  | _ => exact Frame.quiet ⟨rfl, rfl, fun _ => rfl⟩ hs

theorem quiet_mounted (project : Option Text) : (World.mounted project).Quiet := fun hunmounted =>
  absurd hunmounted (Bool.not_eq_false _ ▸ mountedRef_runEffect _ project)

end World

end Ariad.Notifications
