import GroupChat.Chat.Refinement

/-!
# Nothing is lost

A client hears everything that is sent to its group from the moment it has joined. A
message that was pending then, or was inserted later, and is not pending any more has been
written to everybody who had joined and has not departed (`GroupChat.Server.Delivered`);
what has been written and read has been handled, one message after the other. So a chat in
which there is nothing left to do has brought every message to everybody it is for
(`GroupChat.Chat.chat_complete`), and where no message had been removed before the reader
joined, what it has heard from another member is exactly what that member has sent.

Together with `GroupChat.Chat.chat_faithful` this is exactly-once delivery, between the
`write` of one client and the loop of another.
-/

namespace GroupChat

open Server Lobby Framing ByteLayout

variable {nc n : ℕ}

namespace Server

variable {old s t : Server nc} {mvs : List (ServerMove nc)}

/-- What was pending in an old state, or has been inserted since, has reached the members of
this time as soon as it is not pending any more. -/
def Delivered (old s : Server nc) : Prop :=
  ∀ ticket m g, (ticket < old.sent.length → old.Pending ticket) →
    s.messages[ticket]? = some m → m.InGroup g → ¬s.Pending ticket →
      s.Reached old.lobby.members.length ticket m g

theorem delivered_self (s : Server nc) : s.Delivered s := fun _ _ _ hpending hm _ hend =>
  absurd (hpending (lt_of_messages hm)) hend

end Server

/-- A message that has just been inserted is pending. -/
theorem ServerStep.pending_of_new {s t : Server nc} {mv : ServerMove nc} (hinv : s.Inv n)
    (hstep : ServerStep n s mv t) {ticket : ℕ} (hold : s.sent.length ≤ ticket)
    (hnew : ticket < t.sent.length) : t.Pending ticket := by
  have hle := hinv.popped_le
  rw [messages, List.length_map] at hle
  cases hstep with
  | enqueue => exact ⟨hnew, fun hlt => absurd (hlt.trans_le hle) (Nat.not_lt.mpr hold)⟩
  | _ => exact absurd hnew (Nat.not_lt.mpr hold)

namespace Server

variable {old s t : Server nc} {mvs : List (ServerMove nc)}

/-- **Every step delivers** what it ends. -/
theorem Delivered.step {mv : ServerMove nc} (h : old.Delivered s) (hs : s.Sound n)
    (hgrows : old.lobby.members.length ≤ s.lobby.members.length)
    (hstep : ServerStep n s mv t) : old.Delivered t := by
  intro ticket m g hpending hm hg hend
  by_cases hlt : ticket < s.sent.length
  · have hms : s.messages[ticket]? = some m := by
      obtain ⟨more, hmore⟩ := hstep.sent_extends
      rwa [messages, ← hmore, List.map_append, List.getElem?_append_left (by simpa using hlt)] at hm
    by_cases hsp : s.Pending ticket
    · exact hstep.reached hs.inv hs.distinct hs.sweeps hms hg hsp hend _
    · exact (h ticket m g hpending hms hg hsp).step hgrows hstep (of_not_pending hlt hsp).2
  · exact absurd (hstep.pending_of_new hs.inv (Nat.not_lt.mp hlt) (lt_of_messages hm)) hend

/-- **What has been inserted is delivered**, in every run whose moves are proper. -/
theorem delivered_of_run (hold : old.Sound n) (hG : (server nc).Always Proper old mvs)
    (hrun : (server nc).run old mvs = some t) : old.Delivered t := by
  refine (StepSystem.run_invariant (I := fun u => u.Sound n ∧
    old.lobby.members.length ≤ u.lobby.members.length ∧ old.Delivered u)
      (fun u mv v hu hG hexec => ?_) ⟨hold, le_rfl, delivered_self old⟩ hG hrun).2.2
  obtain ⟨hu, hgrows, hdelivered⟩ := hu
  have hstep := hu.inv.step hexec
  exact ⟨hu.step hG hexec, hgrows.trans hstep.grows.length_le, hdelivered.step hu hgrows hstep⟩

end Server

/-! ### Sessions -/

/-- A client that has read everything has handled all its letters. -/
theorem Linked.mail_eq {args : Arguments} {v : Server nc} {x : Session} (h : Linked args v x)
    (hv : v.Sound n) (hans : x.Answered) (hincoming : x.incoming v = []) {fd : ℤ}
    (hfd : x.nsfd = some fd) : x.mail v = v.letters fd := by
  obtain ⟨k, r, -, hr, hnsfd, hphase, hresponse, -⟩ := h.exists_member hv hans
  obtain rfl := Option.some.inj (hfd.symm.trans hnsfd)
  -- the stream is what has been read
  have hall : x.obtained = x.stream v := by
    refine h.inward.eq_of_length_le ?_
    rw [← h.received]
    exact List.drop_eq_nil_iff.mp hincoming
  rw [Session.obtained_of_answered hans, Session.stream, hfd] at hall
  simp only [hv.post k r hr hphase, hresponse] at hall
  have hlen := congrArg List.length
    (RecordCodec.encodeAll_inj (by decide) (List.append_cancel_left hall))
  rw [List.length_map, List.length_map] at hlen
  simp only [Session.mail, hfd]
  rw [hlen, List.take_length]

/-- A handler that has read everything has inserted everything. -/
theorem Linked.eq_sent {args : Arguments} {v : Server nc} {x : Session} (h : Linked args v x)
    {ms : List Message} (hall : x.request ++ messageCodec.encodeAll ms = x.client.stream) :
    ms = x.client.sent.map Prod.snd := by
  obtain ⟨hrank, hrequest, -⟩ := h.split ⟨[], by rw [List.append_nil, hall]⟩
  rw [h.wire.stream, if_neg (by omega), hrequest] at hall
  exact RecordCodec.encodeAll_inj (by decide) (List.append_cancel_left hall)

/-- A member whose handler has not ended has not departed. -/
theorem Linked.exists_serving {args : Arguments} {v : Server nc} {x : Session}
    (h : Linked args v x) {k : ℕ} (hk : x.handler.member? = some k)
    (hended : x.handler ≠ .ended k) : ∃ p ≠ Phase.departed, x.Serves v k p := by
  have hplaced := h.placed
  cases hx : x.handler
  all_goals
    simp only [hx, Handler.member?, reduceCtorEq, Option.some.injEq] at hk
  all_goals
    subst hk
    simp only [Session.Placed, hx] at hplaced
  case respond => exact ⟨_, by simp, hplaced.1⟩
  case ended => exact absurd hx hended
  all_goals exact ⟨_, by simp, hplaced⟩

/-- The handler has something to write or to insert. -/
def Handler.Busy : Handler → Prop
  | respond _ | insert _ => True
  | _ => False

instance : (handler : Handler) → Decidable handler.Busy
  | .respond _ | .insert _ => isTrue trivial
  | .absent | .readRequest | .join | .read _ | .depart _ | .ended _ => isFalse id

/-! ### The chat -/

/-- Who has joined stays a member. -/
theorem ChatStep.member_mono {ι : Type*} [DecidableEq ι] {args : ι → Arguments} {s t : Chat ι nc}
    {m : ChatMove ι nc} (h : ChatStep args s m t) (hinv : s.Inv args n) {q : ι} {k : ℕ}
    (hk : (s.session q).handler.member? = some k) : (t.session q).handler.member? = some k := by
  -- one session changes at most, and its handler stays with its member
  have hput : ∀ {p : ι} {x : Session} {v : Server nc},
      ((s.session p).handler.member? = some k → x.handler.member? = some k) →
        (({ s with server := v }.put p x).session q).handler.member? = some k := by
    intro p x v hx
    rw [Chat.session_put]
    split_ifs with hq
    · exact hx (hq ▸ hk)
    · exact hk
  cases h with
  | main | readResponse | sigusr1 | receive | exit => exact hput fun hp => hp
  | accept hnsfd =>
    refine hput fun hp => ?_
    simp [(hinv.linked _).handler_of_nsfd hnsfd, Handler.member?] at hp
  | readRequest hhandler | join hhandler =>
    refine hput fun hp => ?_
    simp [hhandler, Handler.member?] at hp
  | respond hhandler | insert hhandler | depart hhandler =>
    refine hput fun hp => ?_
    rwa [hhandler] at hp
  | read hhandler =>
    refine hput fun hp => ?_
    rw [hhandler] at hp
    simp only [Session.read]
    split_ifs <;> exact hp
  | pop | turn => exact hk

namespace Chat

variable {ι : Type*} {args : ι → Arguments} {s t u : Chat ι nc}
  {a : Multicast ι (List UInt8) Message}

/-- There is nothing left to do: every message inserted has been removed and its delivery loop
has ended, handlers have read and inserted what their clients have sent, and receivers have
read what has been written to them. -/
structure Settled (s : Chat ι nc) : Prop where
  removed : s.server.sent.length ≤ s.server.popped.length
  idle : ∀ c, s.server.consumer c = .idle
  inserted : ∀ p, ¬(s.session p).handler.Busy
  outgoing : ∀ p, (s.session p).handler.member?.isSome → (s.session p).outgoing = []
  incoming : ∀ p, (s.session p).Running → (s.session p).Answered →
    (s.session p).incoming s.server = []

instance [Fintype ι] (s : Chat ι nc) : Decidable s.Settled :=
  decidable_of_iff
    (s.server.sent.length ≤ s.server.popped.length ∧ (∀ c, s.server.consumer c = .idle) ∧
      (∀ p, ¬(s.session p).handler.Busy) ∧
      (∀ p, (s.session p).handler.member?.isSome → (s.session p).outgoing = []) ∧
      ∀ p, (s.session p).Running → (s.session p).Answered →
        (s.session p).incoming s.server = [])
    ⟨fun h => ⟨h.1, h.2.1, h.2.2.1, h.2.2.2.1, h.2.2.2.2⟩,
      fun h => ⟨h.removed, h.idle, h.inserted, h.outgoing, h.incoming⟩⟩

theorem Settled.not_pending (h : s.Settled) (ticket : ℕ) : ¬s.server.Pending ticket := by
  rintro ⟨hlt, hloop⟩
  obtain ⟨c, hc⟩ := hloop (hlt.trans_le h.removed)
  simp [h.idle c, Consumer.ticket?] at hc

/-- How many of the messages with smaller tickets are by `p`. -/
def before (s : Chat ι nc) (p : ι) (ticket : ℕ) : ℕ :=
  (s.server.sent.take ticket).countP fun x => (s.session p).handler.member? = some x.1

/-- **Every message has been inserted**, when there is nothing left to do. -/
theorem Settled.posted (h : s.Settled) (hinv : s.Inv args n) {p : ι} {k : ℕ}
    (hk : (s.session p).handler.member? = some k) :
    s.server.messagesOf k = (s.session p).client.sent.map Prod.snd := by
  have hlinked := hinv.linked p
  have hidle := h.inserted p
  have hall : (s.session p).consumed s.server = (s.session p).client.stream := by
    refine hlinked.outward.eq_of_length_le ?_
    rw [← hlinked.taken]
    exact List.drop_eq_nil_iff.mp (h.outgoing p (by rw [hk]; rfl))
  refine hlinked.eq_sent (Eq.trans ?_ hall)
  cases hx : (s.session p).handler
  all_goals simp only [hx, Handler.member?, reduceCtorEq, Option.some.injEq] at hk
  all_goals subst hk
  case respond | insert => simp [hx, Handler.Busy] at hidle
  all_goals simp only [Session.consumed, hx]

/-- **A letter for every message.** What `p` has inserted is written to `q`, if `q` had joined
while it was pending, or before, and has not departed. -/
theorem Inv.mem_tickets (hinv : t.Inv args n) (hshort : ∀ p, (args p).Short)
    (hdelivered : u.server.Delivered t.server) {p q : ι} (hne : p ≠ q)
    (hgroup : (args p).groupName = (args q).groupName) {k : ℕ}
    (hk : (t.session q).handler.member? = some k) (hlt : k < u.server.lobby.members.length)
    (hended : (t.session q).handler ≠ .ended k) {ticket : ℕ} (hfrom : t.From p ticket)
    (hpending : ticket < u.server.sent.length → u.server.Pending ticket)
    (hend : ¬t.server.Pending ticket) {fd : ℤ} (hfd : (t.session q).nsfd = some fd) :
    ticket ∈ t.server.tickets fd := by
  obtain ⟨⟨j, m⟩, hsent, hj⟩ := hfrom
  obtain ⟨author, hauthor, -, hp⟩ := hinv.exists_named hshort hj
  obtain ⟨phase, hphase, reader, hreader, hnsfd, rfl, -⟩ :=
    (hinv.linked q).exists_serving hk hended
  obtain rfl := Option.some.inj (hfd.symm.trans hnsfd)
  obtain ⟨reader', hq, -, hname⟩ := hinv.exists_named hshort hk
  obtain rfl := Option.some.inj (hreader.symm.trans hq)
  -- both are in one group, with different ids
  have hsame := (hinv.server.names.registered.sameGroup author (List.mem_of_getElem? hauthor) _
    (List.mem_of_getElem? hreader)).mpr (by rw [hp, hname, hgroup])
  obtain ⟨hid, hgroupId⟩ := hinv.server.honest j m (List.mem_of_getElem? hsent) author hauthor
  have hother : (reader.id : ℤ) ≠ m.id.toInt := by
    rintro heq
    have hids : author.id = reader.id := Int.ofNat_inj.mp (hid.symm.trans heq.symm)
    obtain rfl := hinv.server.inv.slots.numbered.index_eq hauthor hreader hsame hids
    exact hne (hinv.member_inj hj hk)
  have hmessage : t.server.messages[ticket]? = some m := by
    rw [Server.messages, List.getElem?_map, Option.mem_def.mp hsent, Option.map_some]
  have hcopies := hdelivered ticket m reader.groupId hpending hmessage
    (by rw [Message.InGroup, hgroupId, hsame]) hend k reader hlt hreader rfl hother hphase
  exact mem_tickets_iff.mpr (by rw [hcopies]; simp)

variable [DecidableEq ι] {input : ι → List UInt8} {pre post : List (ChatMove ι nc)}

/-- The posts of a client before a ticket. -/
theorem Refines.length_before (h : Refines args t a) (hinv : t.Inv args n) {p : ι} {k : ℕ}
    (hk : (t.session p).handler.member? = some k) (ticket : ℕ) :
    ((a.posts.take ticket).filterMap (Multicast.ofAuthor p)).length = t.before p ticket := by
  rw [hinv.filterMap_ofAuthor hk (List.forall₂_take ticket h.posts), List.length_map,
    ← List.countP_eq_length_filter, before, hk]
  simp [eq_comm]

/-- What is on the board from a ticket on is what has been sent behind the messages with
smaller tickets. -/
theorem Settled.drop_sent (h : t.Settled) (hinv : t.Inv args n) (hrefines : Refines args t a)
    {p : ι} {k : ℕ} (hk : (t.session p).handler.member? = some k) (ticket : ℕ) :
    (a.posts.drop ticket).filterMap (Multicast.ofAuthor p) =
      ((t.session p).client.sent.map Prod.snd).drop (t.before p ticket) := by
  have hall : (a.posts.take ticket).filterMap (Multicast.ofAuthor p) ++
      (a.posts.drop ticket).filterMap (Multicast.ofAuthor p) =
        (t.session p).client.sent.map Prod.snd := by
    rw [← List.filterMap_append, List.take_append_drop, ← h.posted hinv hk,
      ← hrefines.posted hinv hk, Multicast.posted]
  rw [← hall, ← hrefines.length_before hinv hk ticket, List.drop_left]

omit [DecidableEq ι] in
/-- A post is a message that the handler of its author has inserted. -/
theorem Refines.from_of_post (h : Refines args s a) {p : ι} {m : Message} {ticket : ℕ}
    (hpost : a.posts[ticket]? = some (p, m)) : s.From p ticket := by
  obtain ⟨hlt, hget⟩ := List.getElem?_eq_some_iff.mp hpost
  have hlt' : ticket < s.server.sent.length := h.posts.length_eq ▸ hlt
  have hboth := h.posts.get hlt' hlt
  rw [List.get_eq_getElem, List.get_eq_getElem, hget] at hboth
  exact ⟨_, List.getElem?_eq_getElem hlt', hboth.1⟩

/-- Who has joined stays a member in every run. -/
theorem member_of_run (hinv : u.Inv args n) (hshort : ∀ p, (args p).Short)
    (hG : (chat nc args).Always Orderly u post) (hrun : (chat nc args).run u post = some t) {q : ι}
    {k : ℕ} (hk : (u.session q).handler.member? = some k) :
    (t.session q).handler.member? = some k := by
  refine (StepSystem.run_invariant (I := fun v => v.Inv args n ∧
    (v.session q).handler.member? = some k) (fun v m w hv hG hexec => ?_) ⟨hinv, hk⟩ hG hrun).2
  have hstep := step_of_exec hexec
  exact ⟨hstep.inv hv.1 hshort hG, hstep.member_mono hv.1 hv.2⟩

/-- What had not been removed when the reader had joined is heard. -/
theorem drop_subperm_heard (hs : s.Initial n input) (hshort : ∀ p, (args p).Short)
    (hG : (chat nc args).Always Orderly s (pre ++ post)) (hpre : (chat nc args).run s pre = some u)
    (hpost : (chat nc args).run u post = some t) (hsettled : t.Settled) {p q : ι} (hne : p ≠ q)
    (hgroup : (args p).groupName = (args q).groupName)
    (hjoined : (u.session q).handler.member?.isSome) (hrun : (t.session q).Running)
    (hans : (t.session q).Answered) :
    (((t.session p).client.sent.map Prod.snd).drop
      (t.before p u.server.popped.length)).Subperm (t.heard q p) := by
  rw [StepSystem.always_append] at hG
  have hinvu := inv_of_run hs.inv hshort hG.1 hpre
  have hinv := inv_of_run hinvu hshort (hG.2 u hpre) hpost
  have hboth := StepSystem.always_append.mpr hG
  have hall := StepSystem.run_append_eq_some.mpr ⟨u, hpre, hpost⟩
  obtain ⟨ns, a, -, hrefines⟩ := exists_refines hs hshort hboth hall
  obtain ⟨mvs, hserver, hproper⟩ := exists_server_run hinvu hshort (hG.2 u hpre) hpost
  have hdelivered := delivered_of_run hinvu.server hproper hserver
  -- the reader is the same member all the time, and has its place in the server's tables
  obtain ⟨k, hku⟩ := Option.isSome_iff_exists.mp hjoined
  have hk := member_of_run hinvu hshort (hG.2 u hpre) hpost hku
  obtain ⟨r, hr, -⟩ := hinvu.exists_named hshort hku
  have hlt := (List.getElem?_eq_some_iff.mp hr).1
  obtain ⟨r', hr', hnsfd, -⟩ := hinv.exists_named hshort hk
  have hended : (t.session q).handler ≠ .ended k := by
    intro hended
    have hexited := ((hinv.linked q).closed k (Or.inr hended)).1
    rw [hrun.1] at hexited
    exact absurd hexited (by simp)
  have hmail := (hinv.linked q).mail_eq hinv.server hans (hsettled.incoming q hrun hans) hnsfd
  cases hkp : (t.session p).handler.member? with
  | none =>
    -- who has not joined has sent nothing
    have hsent : (t.session p).client.sent.map Prod.snd = [] := by
      by_contra hcon
      obtain ⟨m, hm⟩ := List.exists_mem_of_ne_nil _ hcon
      obtain ⟨j, -, hj, -⟩ := (hinv.linked p).honest_of_mem hinv.server hm
      rw [hkp] at hj
      exact absurd hj (by simp)
    rw [hsent, List.drop_nil]
    exact List.nil_subperm
  | some j =>
    rw [← hsettled.drop_sent hinv hrefines hkp, ← hrefines.received hinv]
    refine Multicast.filterMap_drop_subperm_received fun ticket m hticket hpost => ?_
    rw [hrefines.inbox, hmail]
    refine hinv.mem_tickets hshort hdelivered hne hgroup hk hlt hended
      (hrefines.from_of_post hpost) (fun hlt => ⟨hlt, fun hcon => ?_⟩) (hsettled.not_pending ticket)
      hnsfd
    exact absurd hcon (Nat.not_lt.mpr hticket)

/-- What is heard is what has been sent, if none of it had been removed. -/
theorem heard_perm (hs : s.Initial n input) (hshort : ∀ p, (args p).Short)
    (hG : (chat nc args).Always Orderly s (pre ++ post)) (hpre : (chat nc args).run s pre = some u)
    (hpost : (chat nc args).run u post = some t) (hsettled : t.Settled) {p q : ι} (hne : p ≠ q)
    (hgroup : (args p).groupName = (args q).groupName)
    (hjoined : (u.session q).handler.member?.isSome) (hrun : (t.session q).Running)
    (hans : (t.session q).Answered)
    (hnone : t.before p u.server.popped.length = 0) :
    (t.heard q p).Perm ((t.session p).client.sent.map Prod.snd) := by
  have hlost := drop_subperm_heard hs hshort hG hpre hpost hsettled hne hgroup hjoined hrun hans
  rw [hnone, List.drop_zero] at hlost
  exact (heard_subperm hs hshort hG (StepSystem.run_append_eq_some.mpr ⟨u, hpre, hpost⟩) q
    p).antisymm hlost

end Chat

end GroupChat
