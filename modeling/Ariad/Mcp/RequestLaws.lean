import Ariad.Mcp.Server
import Ariad.Relational.Rows

/-!
# Requests and responses

What holds of every line of every run.

* `answers` — the responses to a line, and the handlers that will give one.
* `Reply` — what the dispatch can do with a message: nothing, one response, or one handler.
* `handleMessage_cases` — which of these it does for which method.
* `Inv` — the invariant: every line with its answers, and how far the handshake has come.
* `requests_answered` — one response to a request that is neither dropped nor named like a notification.
-/

namespace Ariad.Mcp

open List

variable {host : McpHost} {s s' : McpServer} {line k : ℕ} {id : Option Js}

/-! ## Messages -/

/-- A JSON-RPC 2.0 message with a method; a request has an id. -/
def IsMessage (host : McpHost) (text : Text) (id : Option Js) (method : Text) : Prop :=
  ∃ req, host.parse text = .ok (.obj req) ∧ req.get "jsonrpc".toList = some (str "2.0") ∧
    req.get "method".toList = some (.str method) ∧ req.get "id".toList = id

/-- A line that is not dropped. -/
def Fits (text : Text) : Prop := (text.flatMap utf16).length ≤ MCP_MAX_LINE_LENGTH

def IsNotificationMethod (method : Text) : Prop := "notifications/".toList.isPrefixOf method = true

instance (method : Text) : Decidable (IsNotificationMethod method) :=
  inferInstanceAs (Decidable ("notifications/".toList.isPrefixOf method = true))

/-- The line `k` was a message, and it was not dropped. -/
def McpServer.Got (host : McpHost) (s : McpServer) (k : ℕ) (id : Option Js) (method : Text) : Prop :=
  ∃ text, s.received[k]? = some text ∧ Fits text ∧ IsMessage host text id method

/-- The ids of the responses to a line, and of the calls of it whose handler still runs. -/
def McpServer.answers (s : McpServer) (k : ℕ) : List Js :=
  (s.responses.filter fun r => r.line = k).map Response.id ++
    (s.pending.filter fun c => c.line = k).filterMap Call.id

/-! ## Replies -/

/-- A response, if there is an id to respond to. -/
def McpServer.respond (s : McpServer) (line : ℕ) (id : Option Js) (body : Body) : McpServer :=
  { s with responses := s.responses ++ id.toList.map fun id => ⟨line, id, body⟩ }

variable {outcome : Except Text Js}

theorem sendResult_eq (r : Js) : s.sendResult line id r = s.respond line id (.result r) := by
  cases id with
  | none => simp [McpServer.sendResult, McpServer.respond]
  | some id => rfl

theorem sendError_eq (code : ℤ) (message : Text) :
    s.sendError line id code message = s.respond line id (.error code message) := by
  cases id with
  | none => simp [McpServer.sendError, McpServer.respond]
  | some id => rfl

/-- What the dispatch does with a message of an id. -/
inductive Reply (s : McpServer) (line : ℕ) (id : Option Js) : McpServer → Prop where
  | answer (body : Body) : Reply s line id (s.respond line id body)
  | call (tool : Text) (args : Js) (h : s.initialized = true) :
    Reply s line id { s with pending := s.pending ++ [⟨line, id, tool, args⟩], handled := s.handled ++ [line] }

theorem reply_sendResult (r : Js) : Reply s line id (s.sendResult line id r) := sendResult_eq r ▸ .answer _

theorem reply_sendError (code : ℤ) (message : Text) : Reply s line id (s.sendError line id code message) :=
  sendError_eq code message ▸ .answer _

theorem reply_toolsCall (params : Option Js) : Reply s line id (s.toolsCall line host id params) := by
  rw [McpServer.toolsCall]
  split
  · exact reply_sendError _ _
  · rename_i hinit
    dsimp only
    split
    · split
      · exact .call _ _ (by simpa using hinit)
      · exact reply_sendError _ _
    · exact reply_sendError _ _

/-- **What the dispatch does with which method.** -/
theorem handleMessage_cases (host : McpHost) (s : McpServer) (line : ℕ) (id params : Option Js) (method : Text) :
    (IsNotificationMethod method ∧ (s.handleMessage line host id params method = s ∨
      (method = "notifications/initialized".toList ∧ s.negotiatedProtocolVersion ≠ none ∧
        s.handleMessage line host id params method = { s with initialized := true }))) ∨
    (method = "initialize".toList ∧ ∃ v body,
      s.handleMessage line host id params method =
        { s with negotiatedProtocolVersion := some v }.respond line id body) ∨
    (¬IsNotificationMethod method ∧ Reply s line id (s.handleMessage line host id params method) ∧
      ((s.handleMessage line host id params method).handled = s.handled ∨ method = "tools/call".toList)) := by
  rw [McpServer.handleMessage]
  split
  · rename_i hmethod
    refine .inl ⟨hmethod ▸ by decide, ?_⟩
    split
    · exact .inl rfl
    · rename_i hnegotiated
      exact .inr ⟨hmethod, by simpa using hnegotiated, rfl⟩
  · split
    · rename_i hmethod
      exact .inl ⟨hmethod ▸ by decide, .inl rfl⟩
    · split
      · rename_i hlead
        exact .inl ⟨hlead, .inl rfl⟩
      · rename_i hlead
        split
        · rename_i hmethod
          refine .inr (.inl ⟨hmethod, ?_⟩)
          rw [McpServer.onInitialize, sendResult_eq]
          exact ⟨_, _, rfl⟩
        · refine .inr (.inr ⟨hlead, ?_⟩)
          have hhandled_result (r : Js) : (s.sendResult line id r).handled = s.handled := by cases id <;> rfl
          have hhandled_error (code : ℤ) (m : Text) : (s.sendError line id code m).handled = s.handled := by
            cases id <;> rfl
          split
          · exact ⟨reply_sendResult _, .inl (hhandled_result _)⟩
          · split
            · exact ⟨reply_sendResult _, .inl (hhandled_result _)⟩
            · split
              · rename_i hmethod
                exact ⟨reply_toolsCall params, .inr hmethod⟩
              · exact ⟨reply_sendError _ _, .inl (hhandled_error _ _)⟩

/-- A line that is no message of this form gets an error, or nothing. -/
theorem handleLine_cases (host : McpHost) (s : McpServer) (line : ℕ) (text : Text) :
    (∃ id method params, IsMessage host text id method ∧
      s.handleLine line host text = s.handleMessage line host id params method) ∨
    (∀ id method, ¬IsMessage host text id method) ∧ ∃ id body,
      s.handleLine line host text = { s with responses := s.responses ++ [⟨line, id, body⟩] } := by
  rw [McpServer.handleLine]
  cases hparse : host.parse text with
  | error message =>
    refine .inr ⟨?_, _, _, rfl⟩
    rintro id method ⟨req, hreq, -⟩
    rw [hparse] at hreq
    cases hreq
  | ok v =>
    have hnot (h : ∀ req, v ≠ .obj req) : ∀ id method, ¬IsMessage host text id method := by
      rintro id method ⟨req, hreq, -⟩
      rw [hparse, Except.ok.injEq] at hreq
      exact h req hreq
    cases v with
    | obj req =>
      dsimp only
      have hno (hbad : ∀ m, ¬(req.get "jsonrpc".toList = some (str "2.0") ∧ req.get "method".toList = some (.str m))) :
          ∀ id method, ¬IsMessage host text id method := by
        rintro id method ⟨req', hreq, hversion, hmethod, -⟩
        rw [hparse, Except.ok.injEq, Js.obj.injEq] at hreq
        subst hreq
        exact hbad method ⟨hversion, hmethod⟩
      split
      · rename_i version method hversion hmethod
        split
        · rename_i htwo
          subst htwo
          exact .inl ⟨_, method, _, ⟨req, hparse, hversion, hmethod, rfl⟩, rfl⟩
        · rename_i htwo
          refine .inr ⟨hno fun m hm => htwo ?_, _, _, rfl⟩
          have := hversion.symm.trans hm.1
          simpa [str] using this
      · rename_i hbad
        refine .inr ⟨hno fun m hm => ?_, _, _, rfl⟩
        exact hbad _ _ hm.1 hm.2
    | null => exact .inr ⟨hnot (by simp), _, _, rfl⟩
    | bool b => exact .inr ⟨hnot (by simp), _, _, rfl⟩
    | num n => exact .inr ⟨hnot (by simp), _, _, rfl⟩
    | str t => exact .inr ⟨hnot (by simp), _, _, rfl⟩
    | date t => exact .inr ⟨hnot (by simp), _, _, rfl⟩
    | arr items => exact .inr ⟨hnot (by simp), _, _, rfl⟩

/-! ## The invariant -/

/-- A handshake before the line `k`: an initialize message, whose request was answered, and the notification. -/
def Handshake (host : McpHost) (s : McpServer) (k : ℕ) : Prop :=
  ∃ i j x id, i < j ∧ j < k ∧ s.Got host i x "initialize".toList ∧
    (∀ y, x = some y → ∃ r ∈ s.responses, r.line = i ∧ r.id = y) ∧ s.Got host j id "notifications/initialized".toList

structure Inv (host : McpHost) (s : McpServer) : Prop where
  responses_lt : ∀ r ∈ s.responses, r.line < s.received.length
  pending_lt : ∀ c ∈ s.pending, c.line < s.received.length
  /-- A line has one handler at most. -/
  once : (s.pending.map Call.line).Nodup
  answered : ∀ k id method, s.Got host k (some id) method → ¬IsNotificationMethod method → s.answers k = [id]
  unanswered : ∀ k text method, s.received[k]? = some text → IsMessage host text none method → s.answers k = []
  negotiated : s.negotiatedProtocolVersion ≠ none → ∃ i x, s.Got host i x "initialize".toList ∧
    ∀ y, x = some y → ∃ r ∈ s.responses, r.line = i ∧ r.id = y
  initialized : s.initialized = true → Handshake host s s.received.length
  handled : ∀ k ∈ s.handled, Handshake host s k ∧ ∃ id, s.Got host k id "tools/call".toList

theorem IsMessage.unique {text : Text} {id id' : Option Js} {method method' : Text}
    (h : IsMessage host text id method) (h' : IsMessage host text id' method') : id = id' ∧ method = method' := by
  obtain ⟨req, hreq, -, hmethod, rfl⟩ := h
  obtain ⟨req', hreq', -, hmethod', rfl⟩ := h'
  rw [hreq, Except.ok.injEq, Js.obj.injEq] at hreq'
  subst hreq'
  rw [hmethod, Option.some.injEq, Js.str.injEq] at hmethod'
  exact ⟨rfl, hmethod'⟩

/-- What a line was, it stays. -/
theorem McpServer.Got.mono {method : Text} (h : s.Got host k id method) (hpre : s.received <+: s'.received) :
    s'.Got host k id method := by
  obtain ⟨text, htext, hrest⟩ := h
  obtain ⟨rest, hrest'⟩ := hpre
  refine ⟨text, ?_, hrest⟩
  rw [← hrest']
  exact getElem?_append_left (List.getElem?_eq_some_iff.mp htext).1 ▸ htext

theorem Handshake.mono {n : ℕ} (h : Handshake host s k) (hpre : s.received <+: s'.received)
    (hresponses : s.responses ⊆ s'.responses) (hk : k ≤ n) : Handshake host s' n := by
  obtain ⟨i, j, x, id, hij, hjk, hi, hanswer, hj⟩ := h
  refine ⟨i, j, x, id, hij, by omega, hi.mono hpre, fun y hy => ?_, hj.mono hpre⟩
  obtain ⟨r, hr, hrest⟩ := hanswer y hy
  exact ⟨r, hresponses hr, hrest⟩

theorem inv_start : Inv host .start where
  responses_lt := by simp [McpServer.start]
  pending_lt := by simp [McpServer.start]
  once := nodup_nil
  answered := by
    rintro k id method ⟨text, htext, -⟩
    simp [McpServer.start] at htext
  unanswered := by
    intro k text method htext
    simp [McpServer.start] at htext
  negotiated := by simp [McpServer.start]
  initialized := by simp [McpServer.start]
  handled := by simp [McpServer.start]

/-! ## A handler ends -/

theorem answers_respond (body : Body) (k : ℕ) : (s.respond line id body).answers k =
    (s.responses.filter fun r => r.line = k).map Response.id ++ (if line = k then id.toList else []) ++
      (s.pending.filter fun c => c.line = k).filterMap Call.id := by
  rw [McpServer.respond, McpServer.answers, filter_append, map_append]
  cases id with
  | none => simp
  | some id => by_cases hk : line = k <;> simp [hk]

theorem settle_cases (h : s.settle line outcome = some s') : ∃ c ∈ s.pending, c.line = line ∧ ∃ body,
      s' = { s with pending := s.pending.filter fun c => c.line ≠ line }.respond line c.id body := by
  rw [McpServer.settle] at h
  split at h
  · cases h
  · rename_i c hc
    refine ⟨c, mem_of_find?_eq_some hc, by simpa using find?_some hc, ?_⟩
    cases outcome with
    | ok result =>
      dsimp only at h
      rw [sendResult_eq] at h
      exact ⟨_, (Option.some.inj h).symm⟩
    | error message =>
      dsimp only at h
      rw [sendError_eq] at h
      exact ⟨_, (Option.some.inj h).symm⟩

/-- The end of a handler gives the response that its call stood for. -/
theorem answers_settle (hs : Inv host s) (h : s.settle line outcome = some s') (k : ℕ) :
    s'.answers k = s.answers k := by
  obtain ⟨c, hc, rfl, body, rfl⟩ := settle_cases h
  rw [answers_respond, McpServer.answers]
  by_cases hk : c.line = k
  · subst hk
    have hnone : ((s.pending.filter fun d => d.line ≠ c.line).filter fun d => d.line = c.line) = [] := by
      simp [filter_filter]
    have hone : s.pending.filter (fun d => d.line = c.line) = [c] := by
      rw [Rows.filter_key_eq hs.once, (Rows.get_eq_some_iff hs.once).mpr ⟨hc, rfl⟩]
      rfl
    rw [if_pos rfl, hnone, hone]
    cases hid : c.id <;> simp [hid]
  · have hsame : ((s.pending.filter fun d => d.line ≠ c.line).filter fun d => d.line = k) =
        s.pending.filter fun d => d.line = k := by
      rw [filter_filter]
      refine filter_congr fun d _ => ?_
      by_cases hd : d.line = k
      · simp [hd, Ne.symm hk]
      · simp [hd]
    rw [if_neg hk, hsame, append_nil]

theorem inv_settle (hs : Inv host s) (h : s.settle line outcome = some s') : Inv host s' := by
  have hanswers := answers_settle hs h
  obtain ⟨c, hc, rfl, body, rfl⟩ := settle_cases h
  have hsub : s.responses ⊆ ({ s with pending := s.pending.filter fun d => d.line ≠ c.line }.respond c.line c.id
      body).responses := subset_append_left _ _
  refine ⟨?_, ?_, ?_, ?_, ?_, ?_, ?_, ?_⟩
  · intro r hr
    rcases mem_append.mp hr with hr | hr
    · exact hs.responses_lt r hr
    · obtain ⟨x, -, rfl⟩ := mem_map.mp hr
      exact hs.pending_lt c hc
  · exact fun d hd => hs.pending_lt d (mem_filter.mp hd).1
  · exact hs.once.sublist (filter_sublist.map _)
  · exact fun k x method hgot hmethod => (hanswers k).trans (hs.answered k x method hgot hmethod)
  · exact fun k text method htext hmsg => (hanswers k).trans (hs.unanswered k text method htext hmsg)
  · intro hnegotiated
    obtain ⟨i, x, hi, hanswer⟩ := hs.negotiated hnegotiated
    refine ⟨i, x, hi, fun y hy => ?_⟩
    obtain ⟨r, hr, hrest⟩ := hanswer y hy
    exact ⟨r, hsub hr, hrest⟩
  · exact fun hinit => (hs.initialized hinit).mono (prefix_refl _) hsub le_rfl
  · intro k hk
    obtain ⟨hshake, hcall⟩ := hs.handled k hk
    exact ⟨hshake.mono (prefix_refl _) hsub le_rfl, hcall⟩

/-! ## A line arrives -/

/-- Before its line is handled, nothing has answered it. -/
theorem answers_of_le (hs : Inv host s) (hk : s.received.length ≤ k) : s.answers k = [] := by
  have hresponses : (s.responses.filter fun r => r.line = k) = [] := by
    rw [filter_eq_nil_iff]
    intro r hr hline
    have := hs.responses_lt r hr
    rw [of_decide_eq_true hline] at this
    omega
  have hpending : (s.pending.filter fun c => c.line = k) = [] := by
    rw [filter_eq_nil_iff]
    intro c hc hline
    have := hs.pending_lt c hc
    rw [of_decide_eq_true hline] at this
    omega
  rw [McpServer.answers, hresponses, hpending]
  rfl

/-- What every line that arrives leaves as it was, and what there is to show of the new one. -/
structure Arrives (host : McpHost) (s : McpServer) (text : Text) (s' : McpServer) : Prop where
  received : s'.received = s.received ++ [text]
  /-- Old lines keep their answers, and get none. -/
  answers : ∀ k, k ≠ s.received.length → s'.answers k = s.answers k
  responses : s.responses ⊆ s'.responses
  responses_lt : ∀ r ∈ s'.responses, r ∈ s.responses ∨ r.line = s.received.length
  pending : s'.pending = s.pending ∨ ∃ c, c.line = s.received.length ∧ s'.pending = s.pending ++ [c]

/-- A state with one more line, whatever the flags. -/
theorem Arrives.respond {text : Text} {t : McpServer} (ht : t.received = s.received ++ [text])
    (hresponses : t.responses = s.responses) (hpending : t.pending = s.pending) (id : Option Js) (body : Body) :
    Arrives host s text (t.respond s.received.length id body) where
  received := ht
  answers k hk := by
    rw [answers_respond, if_neg (Ne.symm hk), hresponses, hpending, append_nil]
    rfl
  responses := hresponses ▸ subset_append_left _ _
  responses_lt r hr := by
    rcases mem_append.mp hr with hr | hr
    · exact .inl (hresponses ▸ hr)
    · obtain ⟨x, -, rfl⟩ := mem_map.mp hr
      exact .inr rfl
  pending := .inl hpending

/-- What the new line may change in the handshake, and which answers it has. -/
structure Settled (host : McpHost) (s : McpServer) (text : Text) (s' : McpServer) : Prop where
  answered : ∀ id method, Fits text → IsMessage host text (some id) method → ¬IsNotificationMethod method →
    s'.answers s.received.length = [id]
  unanswered : ∀ method, IsMessage host text none method → s'.answers s.received.length = []
  negotiated : s'.negotiatedProtocolVersion ≠ none → s.negotiatedProtocolVersion ≠ none ∨
    ∃ x, Fits text ∧ IsMessage host text x "initialize".toList ∧
      ∀ y, x = some y → ∃ r ∈ s'.responses, r.line = s.received.length ∧ r.id = y
  initialized : s'.initialized = true → s.initialized = true ∨
    s.negotiatedProtocolVersion ≠ none ∧ ∃ id, Fits text ∧ IsMessage host text id "notifications/initialized".toList
  handled : ∀ k ∈ s'.handled, k ∈ s.handled ∨
    k = s.received.length ∧ s.initialized = true ∧ ∃ id, Fits text ∧ IsMessage host text id "tools/call".toList

theorem inv_arrives {text : Text} (hs : Inv host s) (h : Arrives host s text s') (hset : Settled host s text s') :
    Inv host s' := by
  have hpre : s.received <+: s'.received := h.received ▸ prefix_append _ _
  have hlength : s'.received.length = s.received.length + 1 := by simp [h.received]
  have hnew : s'.received[s.received.length]? = some text := by simp [h.received]
  -- a line of the new state is the new one, or a line of before
  have hold {k : ℕ} {t : Text} (ht : s'.received[k]? = some t) :
      k = s.received.length ∧ t = text ∨ k ≠ s.received.length ∧ s.received[k]? = some t := by
    by_cases hk : k = s.received.length
    · subst hk
      exact .inl ⟨rfl, Option.some.inj (ht.symm.trans hnew)⟩
    · have hlt : k < s.received.length := by
        have := (List.getElem?_eq_some_iff.mp ht).1
        omega
      rw [h.received, getElem?_append_left hlt] at ht
      exact .inr ⟨hk, ht⟩
  refine ⟨?_, ?_, ?_, ?_, ?_, ?_, ?_, ?_⟩
  · intro r hr
    rcases h.responses_lt r hr with hr | hr
    · have := hs.responses_lt r hr
      omega
    · omega
  · intro c hc
    rcases h.pending with hp | ⟨d, hd, hp⟩
    · have := hs.pending_lt c (hp ▸ hc)
      omega
    · rcases mem_append.mp (hp ▸ hc) with hc | hc
      · have := hs.pending_lt c hc
        omega
      · rw [mem_singleton.mp hc]
        omega
  · rcases h.pending with hp | ⟨d, hd, hp⟩
    · exact hp ▸ hs.once
    · rw [hp, map_append, map_singleton]
      refine List.nodup_append.mpr ⟨hs.once, nodup_singleton _, ?_⟩
      intro a ha b hb hab
      obtain ⟨c, hc, rfl⟩ := mem_map.mp ha
      have := hs.pending_lt c hc
      rw [mem_singleton.mp hb] at hab
      omega
  · rintro k id method ⟨t, ht, hfits, hmsg⟩ hmethod
    rcases hold ht with ⟨rfl, rfl⟩ | ⟨hk, ht⟩
    · exact hset.answered id method hfits hmsg hmethod
    · exact (h.answers k hk).trans (hs.answered k id method ⟨t, ht, hfits, hmsg⟩ hmethod)
  · intro k t method ht hmsg
    rcases hold ht with ⟨rfl, rfl⟩ | ⟨hk, ht⟩
    · exact hset.unanswered method hmsg
    · exact (h.answers k hk).trans (hs.unanswered k t method ht hmsg)
  · intro hnegotiated
    rcases hset.negotiated hnegotiated with hold | ⟨x, hfits, hmsg, hanswer⟩
    · obtain ⟨i, x, hi, hanswer⟩ := hs.negotiated hold
      refine ⟨i, x, hi.mono hpre, fun y hy => ?_⟩
      obtain ⟨r, hr, hrest⟩ := hanswer y hy
      exact ⟨r, h.responses hr, hrest⟩
    · exact ⟨s.received.length, x, ⟨text, hnew, hfits, hmsg⟩, hanswer⟩
  · intro hinit
    rcases hset.initialized hinit with hold | ⟨hnegotiated, id, hfits, hmsg⟩
    · exact (hs.initialized hold).mono hpre h.responses (by omega)
    · obtain ⟨i, x, hi, hanswer⟩ := hs.negotiated hnegotiated
      have hlt : i < s.received.length := by
        obtain ⟨t, ht, -⟩ := hi
        exact (List.getElem?_eq_some_iff.mp ht).1
      refine ⟨i, s.received.length, x, id, hlt, by omega, hi.mono hpre, fun y hy => ?_, text, hnew, hfits, hmsg⟩
      obtain ⟨r, hr, hrest⟩ := hanswer y hy
      exact ⟨r, h.responses hr, hrest⟩
  · intro k hk
    rcases hset.handled k hk with hold | ⟨rfl, hinit, id, hfits, hmsg⟩
    · obtain ⟨hshake, id, hcall⟩ := hs.handled k hold
      exact ⟨hshake.mono hpre h.responses le_rfl, id, hcall.mono hpre⟩
    · exact ⟨(hs.initialized hinit).mono hpre h.responses le_rfl, id, text, hnew, hfits, hmsg⟩

/-- The answers to the new line when it got a response. -/
theorem answers_respond_new {t : McpServer} (hs : Inv host s) (hresponses : t.responses = s.responses)
    (hpending : t.pending = s.pending) (id : Option Js) (body : Body) :
    (t.respond s.received.length id body).answers s.received.length = id.toList := by
  have hnone := answers_of_le hs (le_refl s.received.length)
  rw [McpServer.answers, append_eq_nil_iff] at hnone
  rw [answers_respond, if_pos rfl, hresponses, hpending, hnone.1, hnone.2, nil_append, append_nil]

theorem inv_receive (text : Text) (hs : Inv host s) : Inv host (s.receive host text) := by
  have hnone := answers_of_le hs (le_refl s.received.length)
  have hquiet (b : Bool) (hb : b = true → s.initialized = true ∨ s.negotiatedProtocolVersion ≠ none ∧
      ∃ id, Fits text ∧ IsMessage host text id "notifications/initialized".toList)
      (hno : ∀ id method, Fits text → IsMessage host text (some id) method → IsNotificationMethod method) :
      Inv host { s with received := s.received ++ [text], initialized := b } := by
    refine inv_arrives hs ⟨rfl, fun _ _ => rfl, List.Subset.refl _, fun r hr => .inl hr, .inl rfl⟩ ?_
    exact ⟨fun id method hf hm hn => absurd (hno id method hf hm) hn, fun _ _ => hnone, .inl, hb, fun k hk => .inl hk⟩
  rw [McpServer.receive]
  split
  · rename_i hlong
    exact hquiet s.initialized .inl fun id method hfits _ => absurd hfits (not_le.mpr hlong)
  · rename_i hshort
    have hfits : Fits text := not_lt.mp hshort
    rcases handleLine_cases host { s with received := s.received ++ [text] } s.received.length text with
      ⟨id, method, params, hmsg, heq⟩ | ⟨hno, id, body, heq⟩
    · rw [heq]
      have hid {x : Option Js} {m : Text} (h : IsMessage host text x m) : x = id ∧ m = method := h.unique hmsg
      rcases handleMessage_cases host { s with received := s.received ++ [text] } s.received.length id params method with
        ⟨hlead, hsame | ⟨hmethod, hnegotiated, hsame⟩⟩ | ⟨hmethod, v, body, hsame⟩ | ⟨hlead, hreply, hcall⟩
      · rw [hsame]
        exact hquiet s.initialized .inl fun x m _ h => (hid h).2 ▸ hlead
      · rw [hsame]
        exact hquiet true (fun _ => .inr ⟨hnegotiated, id, hfits, hmethod ▸ hmsg⟩) fun x m _ h => (hid h).2 ▸ hlead
      · rw [hsame]
        refine inv_arrives hs (.respond (t := { s with
          received := s.received ++ [text], negotiatedProtocolVersion := some v }) rfl rfl rfl id body) ?_
        have hanswers := answers_respond_new (t := { s with
          received := s.received ++ [text], negotiatedProtocolVersion := some v }) hs rfl rfl id body
        refine ⟨fun x m _ h _ => ?_, fun m h => ?_, fun _ => .inr ⟨id, hfits, hmethod ▸ hmsg, fun y hy => ?_⟩, .inl,
          fun k hk => .inl hk⟩
        · rw [hanswers, ← (hid h).1]
          rfl
        · rw [hanswers, ← (hid h).1]
          rfl
        · refine ⟨⟨s.received.length, y, body⟩, mem_append_right _ ?_, rfl, rfl⟩
          rw [hy]
          exact mem_singleton_self _
      · generalize hs' : McpServer.handleMessage _ _ host id params method = s' at hreply hcall ⊢
        cases hreply with
        | answer body =>
          refine inv_arrives hs (.respond (t := { s with received := s.received ++ [text] }) rfl rfl rfl id body) ?_
          have hanswers := answers_respond_new (t := { s with received := s.received ++ [text] }) hs rfl rfl id body
          refine ⟨fun x m _ h _ => ?_, fun m h => ?_, .inl, .inl, fun k hk => .inl hk⟩
          · rw [hanswers, ← (hid h).1]
            rfl
          · rw [hanswers, ← (hid h).1]
            rfl
        | call tool args hinit =>
          have hmethod : method = "tools/call".toList := by
            refine hcall.resolve_left fun h => ?_
            have := congrArg List.length h
            simp at this
          rw [McpServer.answers, append_eq_nil_iff] at hnone
          have hanswers : McpServer.answers { s with
              received := s.received ++ [text]
              pending := s.pending ++ [⟨s.received.length, id, tool, args⟩]
              handled := s.handled ++ [s.received.length] } s.received.length = id.toList := by
            rw [McpServer.answers, filter_append, filterMap_append, hnone.1, hnone.2]
            cases id <;> simp
          refine inv_arrives hs ⟨rfl, fun k hk => ?_, List.Subset.refl _, fun r hr => .inl hr, .inr ⟨_, rfl, rfl⟩⟩ ?_
          · have hother : decide (s.received.length = k) = false := decide_eq_false (Ne.symm hk)
            rw [McpServer.answers, McpServer.answers, filter_append, filter_cons_of_neg (by simp [hother])]
            simp
          · refine ⟨fun x m _ h _ => ?_, fun m h => ?_, .inl, .inl, fun k hk => ?_⟩
            iterate 2
              · rw [hanswers, ← (hid h).1]
                rfl
            · rcases mem_append.mp hk with hk | hk
              · exact .inl hk
              · exact .inr ⟨mem_singleton.mp hk, hinit, id, hfits, hmethod ▸ hmsg⟩
    · rw [heq]
      refine inv_arrives hs (.respond (t := { s with received := s.received ++ [text] }) rfl rfl rfl (some id) body) ?_
      exact ⟨fun x m _ h => absurd h (hno _ m), fun m h => absurd h (hno _ m), .inl, .inl, fun k hk => .inl hk⟩

theorem inv_step {e : McpEvent} (hs : Inv host s) (h : step host s e s') : Inv host s' := by
  cases e with
  | line text =>
    obtain rfl := Option.some.inj h
    exact inv_receive text hs
  | settled line outcome => exact inv_settle hs h

/-! ## Runs -/

/-- What holds of the lines that a server has read. -/
structure RequestLaw (host : McpHost) (s : McpServer) : Prop where
  /-- One response with its id to a request that is neither dropped nor named like a notification: it is written,
  or the handler that will give it runs. -/
  answered : ∀ k id method, s.Got host k (some id) method → ¬IsNotificationMethod method → s.answers k = [id]
  /-- No response to a message without an id. -/
  unanswered : ∀ k text method, s.received[k]? = some text → IsMessage host text none method → s.answers k = []
  /-- A handler runs only for a call behind an answered initialize request and a notification behind that, if no
  initialize message before it went without an id. -/
  handled : ∀ k ∈ s.handled, (∃ id, s.Got host k id "tools/call".toList) ∧
    ((∀ i < k, ¬s.Got host i none "initialize".toList) →
      ∃ i j x id, i < j ∧ j < k ∧ s.Got host i (some x) "initialize".toList ∧
        (∃ r ∈ s.responses, r.line = i ∧ r.id = x) ∧ s.Got host j id "notifications/initialized".toList)

theorem Inv.law (hs : Inv host s) : RequestLaw host s where
  answered := hs.answered
  unanswered := hs.unanswered
  handled k hk := by
    obtain ⟨⟨i, j, x, id, hij, hjk, hi, hanswer, hj⟩, hcall⟩ := hs.handled k hk
    refine ⟨hcall, fun hids => ?_⟩
    cases x with
    | none => exact absurd hi (hids i (hij.trans hjk))
    | some x => exact ⟨i, j, x, id, hij, hjk, hi, hanswer x rfl, hj⟩

def pingText : Text := "\x7b\"jsonrpc\":\"2.0\",\"id\":1,\"method\":\"ping\"\x7d".toList

def progressText : Text := "\x7b\"jsonrpc\":\"2.0\",\"id\":1,\"method\":\"notifications/progress\"\x7d".toList

def initializeText : Text := "\x7b\"jsonrpc\":\"2.0\",\"id\":1,\"method\":\"initialize\"\x7d".toList

/-- An initialize message without an id. -/
def silentInitializeText : Text := "\x7b\"jsonrpc\":\"2.0\",\"method\":\"initialize\"\x7d".toList

def initializedText : Text := "\x7b\"jsonrpc\":\"2.0\",\"method\":\"notifications/initialized\"\x7d".toList

def callText : Text :=
  "\x7b\"jsonrpc\":\"2.0\",\"id\":2,\"method\":\"tools/call\",\"params\":\x7b\"name\":\"overview\"\x7d\x7d".toList

def request (id : Option ℚ) (method : String) (params : List (String × Js)) : Js :=
  obj ([("jsonrpc", str "2.0")] ++ (id.toList.map fun n => ("id", Js.num (.finite n))) ++ [("method", str method)] ++
    params)

/-- A host that reads these lines, with white space around them. -/
def sampleHost : McpHost where
  parse t :=
    if t.trim = pingText then .ok (request (some 1) "ping" [])
    else if t.trim = progressText then .ok (request (some 1) "notifications/progress" [])
    else if t.trim = initializeText then .ok (request (some 1) "initialize" [])
    else if t.trim = silentInitializeText then .ok (request none "initialize" [])
    else if t.trim = initializedText then .ok (request none "notifications/initialized" [])
    else if t.trim = callText then .ok (request (some 2) "tools/call" [("params", obj [("name", str "overview")])])
    else .error "Unexpected token".toList
  tools := [⟨"overview".toList, [], .null, none⟩]
  version := "1.0.0".toList

/-- The handshake, a call, and the end of its handler. -/
def handshakeRun : List McpEvent :=
  [.line initializeText, .line initializedText, .line callText, .settled 2 (.ok (obj []))]

/-- What the handshake ends in. -/
def handshakeEnd : McpServer where
  received := [initializeText, initializedText, callText]
  negotiatedProtocolVersion := some CURRENT_PROTOCOL_VERSION
  initialized := true
  pending := []
  responses := [⟨0, .num (.finite 1), .result (obj [("protocolVersion", .str CURRENT_PROTOCOL_VERSION),
      ("capabilities", obj [("tools", obj [("listChanged", .bool false)])]),
      ("serverInfo", obj [("name", str "codebase-memory-v2"), ("version", str "1.0.0")])])⟩,
    ⟨2, .num (.finite 2), .result (obj [])⟩]
  handled := [2]

/-- A ping behind more white space than a line may have. -/
def longPing : Text := List.replicate MCP_MAX_LINE_LENGTH ' ' ++ pingText

theorem length_le_utf16 (t : Text) : t.length ≤ (t.flatMap utf16).length := by
  induction t with
  | nil => exact le_rfl
  | cons c t ih =>
    have hunit : 1 ≤ (utf16 c).length := by
      rw [utf16]
      split <;> simp
    rw [flatMap_cons, length_append, length_cons]
    omega

theorem longPing_not_fits : ¬Fits longPing := by
  have hlength := length_le_utf16 longPing
  have hping : pingText.length = 40 := by decide
  rw [longPing, length_append, length_replicate, hping] at hlength
  rw [Fits, longPing]
  omega

theorem isMessage_ping {t : Text} (h : t.trim = pingText) :
    IsMessage sampleHost t (some (.num (.finite 1))) "ping".toList := by
  have hparse : sampleHost.parse t = .ok (request (some 1) "ping" []) := if_pos h
  exact ⟨_, hparse, rfl, rfl, rfl⟩

theorem longPing_isMessage : IsMessage sampleHost longPing (some (.num (.finite 1))) "ping".toList := by
  have hblank : Text.Blank (List.replicate MCP_MAX_LINE_LENGTH ' ') := by
    intro c hc
    rw [eq_of_mem_replicate hc]
    rfl
  have htrim := Text.trim_append_of_blank (t := pingText) hblank (fun c hc => absurd hc not_mem_nil)
  rw [append_nil] at htrim
  exact isMessage_ping (htrim.trans (by decide))

/-- A line that is too long leaves no trace but itself. -/
theorem receive_longPing :
    McpServer.start.receive sampleHost longPing = { McpServer.start with received := [longPing] } := by
  have hlong : MCP_MAX_LINE_LENGTH < (longPing.flatMap utf16).length := not_le.mp longPing_not_fits
  rw [McpServer.receive]
  dsimp only
  rw [if_pos hlong]
  rfl

/-- What one line of a request named like a notification ends in. -/
def progressEnd : McpServer := { McpServer.start with received := [progressText] }

/-- What the call behind a silent initialize message ends in. -/
def silentEnd : McpServer where
  received := [silentInitializeText, initializedText, callText]
  negotiatedProtocolVersion := some CURRENT_PROTOCOL_VERSION
  initialized := true
  pending := [⟨2, some (.num (.finite 2)), "overview".toList, .obj .nil⟩]
  responses := []
  handled := [2]

end Ariad.Mcp
