import GroupChat.Chat.Delays
import GroupChat.Chat.Delivery
import GroupChat.Rig.Launch
import GroupChat.Rig.LossCheck

/-!
# A test session

The three programs together. The rig starts a server and the clients, signals the first
ones of each group, and evaluates the logs (`GroupChat.performTest`); in between, the
processes are a chat (`GroupChat.chat`) in which nobody types anything. What the evaluation
was told about the logs (`GroupChat.Outcome`) is what such a chat leaves behind
(`GroupChat.exists_outcome`), so the verdict of the rig is about the chat: it warns if and
only if there is more than one group, or a message is missing somewhere
(`GroupChat.test_verdict`). In a test that comes to rest none is missing
(`GroupChat.settled_test_verdict`).

A client leaves a record for each message it has handled. The server leaves one behind
each delivery loop; the rig kills it at some moment, and the moments considered here are
those at which no consumer is in a loop. What is in the server's records does not matter.
-/

namespace GroupChat

open Server Lobby

variable {G U S : ℕ}

/-! ### The verdict -/

/-- Both counts are right if there is one group, and no copy is missing. -/
theorem Outcome.NoDuplicates.counts_iff {o : Outcome G U S} (h : o.NoDuplicates) (hS : 1 ≤ S)
    (hSU : S ≤ U) :
    (o.processed.length = S ∧ o.copies.length = G * S * (U - 1)) ↔
      G = 1 ∧ ∀ m (k : Fin U), (m.2 : ℕ) ≠ k → m ∈ (o.received m.1 k).map Prod.fst := by
  have hcopies := (h.length_copies hSU).2
  have hprocessed : (∀ m (k : Fin U), (m.2 : ℕ) ≠ k → m ∈ (o.received m.1 k).map Prod.fst) →
      o.processed.length = G * S := fun hall =>
    length_processed.2.mpr fun m => o.logged m fun k hk => hall m k hk
  constructor
  · rintro ⟨hone, hdue⟩
    have hall := hcopies.mp hdue
    have hmul : G * S = 1 * S := by
      rw [← hprocessed hall, hone, one_mul]
    exact ⟨Nat.eq_of_mul_eq_mul_right hS hmul, hall⟩
  · rintro ⟨rfl, hall⟩
    exact ⟨by rw [hprocessed hall, one_mul], hcopies.mpr hall⟩

/-! ### The service in a test -/

section Service

open Multicast

variable {γ α : Type*} {a : Multicast (Fin G × Fin U) γ α} {R : ℕ → ℕ → Prop}

/-- The first `S` parties of each group have said one thing, and the others nothing. -/
structure Tested (S : ℕ) (a : Multicast (Fin G × Fin U) γ α) : Prop where
  said : ∀ p, (a.outbox p).length = if (p.2 : ℕ) < S then 1 else 0
  group : ∀ p q, a.group p = a.group q ↔ p.1 = q.1

/-- The message of a party, if it has one. -/
def messageOf (hS : 0 < S) (p : Fin G × Fin U) : Sent G S :=
  (p.1, if h : (p.2 : ℕ) < S then ⟨p.2, h⟩ else ⟨0, hS⟩)

theorem messageOf_val (hS : 0 < S) {p : Fin G × Fin U} (hp : (p.2 : ℕ) < S) :
    ((messageOf hS p).2 : ℕ) = p.2 := by
  simp [messageOf, hp]

theorem messageOf_inj (hS : 0 < S) {p q : Fin G × Fin U} (hp : (p.2 : ℕ) < S)
    (hq : (q.2 : ℕ) < S) (h : messageOf hS p = messageOf hS q) : p = q := by
  have hgroup : (messageOf hS p).1 = (messageOf hS q).1 := congrArg Prod.fst h
  refine Prod.ext hgroup (Fin.ext ?_)
  rw [← messageOf_val hS hp, h, messageOf_val hS hq]

/-- Who has a post has said something. -/
theorem Tested.lt_of_mem (h : Tested S a) (ha : a.Inv R) {x : (Fin G × Fin U) × α}
    (hx : x ∈ a.posts) : (x.1.2 : ℕ) < S := by
  have hposted : x.2 ∈ a.posted x.1 := List.mem_filterMap.mpr ⟨x, hx, if_pos rfl⟩
  have hlen := List.length_pos_of_mem ((ha.posted x.1).subset hposted)
  rw [h.said] at hlen
  by_contra hcon
  simp [hcon] at hlen

/-- Nobody has two posts. -/
theorem Tested.nodup_authors (h : Tested S a) (ha : a.Inv R) :
    (a.posts.map Prod.fst).Nodup := by
  rw [List.nodup_iff_count_le_one]
  intro p
  have hcount : (a.posts.map Prod.fst).count p = (a.posted p).length := by
    rw [posted, List.length_filterMap_eq_countP, List.count_eq_countP, List.countP_map]
    refine List.countP_congr fun x _ => ?_
    by_cases hx : x.1 = p <;> simp [ofAuthor, hx]
  have hle := (ha.posted p).length_le
  rw [h.said] at hle
  rw [hcount]
  split_ifs at hle <;> omega

/-- No two posts are of one message. -/
theorem Tested.nodup_messages (h : Tested S a) (ha : a.Inv R) (hS : 0 < S) :
    (a.posts.map fun x => messageOf hS x.1).Nodup := by
  refine List.Nodup.map_on (fun x hx y hy heq => ?_) (h.nodup_authors ha).of_map
  have hauthor := messageOf_inj hS (h.lt_of_mem ha hx) (h.lt_of_mem ha hy) heq
  exact List.inj_on_of_nodup_map (h.nodup_authors ha) hx hy hauthor

/-- As many posts as tickets. -/
theorem length_contents (ha : a.Inv R) (p : Fin G × Fin U) :
    (a.contents p).length = (a.inbox p).length := by
  rw [contents, List.length_filterMap_eq_countP, List.countP_eq_length]
  intro ticket hticket
  obtain ⟨-, x, hx, -⟩ := ha.addressed p ticket hticket
  rw [Option.mem_def.mp hx]
  rfl

/-- The logs of a test, as lists of records. -/
def testLogs (records : List UInt64) (log : Fin G × Fin U → List UInt64) : LogFiles where
  server := some records
  client i j :=
    if hi : i < G then if hj : j < U then some (log (⟨i, hi⟩, ⟨j, hj⟩)) else none else none

/-- What has been received comes from the posts, and is for its reader. -/
theorem exists_of_mem_contents (ha : a.Inv R) {q : Fin G × Fin U} {x : (Fin G × Fin U) × α}
    (hx : x ∈ a.contents q) :
    ∃ ticket ∈ a.inbox q, a.posts[ticket]? = some x ∧ x.1 ≠ q ∧ a.group x.1 = a.group q := by
  obtain ⟨ticket, hmem, hticket⟩ := List.mem_filterMap.mp hx
  obtain ⟨-, y, hy, hne, hgroup⟩ := ha.addressed q ticket hmem
  obtain rfl := Option.some.inj (hticket.symm.trans hy)
  exact ⟨ticket, hmem, hticket, hne, hgroup⟩

/-- What has been received is of another member of the group, and among the first posts. -/
theorem Tested.due (h : Tested S a) (ha : a.Inv R) (hS : 0 < S) {done : ℕ}
    (hdone : ∀ q, ∀ ticket ∈ a.inbox q, ticket < done) {q : Fin G × Fin U}
    {x : (Fin G × Fin U) × α} (hx : x ∈ a.contents q) :
    (messageOf hS x.1).1 = q.1 ∧ ((messageOf hS x.1).2 : ℕ) ≠ q.2 ∧
      x ∈ a.posts.take done ∧ (x.1.2 : ℕ) < S := by
  obtain ⟨ticket, hmem, hticket, hne, hgroup⟩ := exists_of_mem_contents ha hx
  have hlt := h.lt_of_mem ha (List.mem_of_getElem? hticket)
  have hsame : x.1.1 = q.1 := (h.group _ _).mp hgroup
  refine ⟨hsame, fun hcon => hne ?_, ?_, hlt⟩
  · rw [messageOf_val hS hlt] at hcon
    exact Prod.ext hsame (Fin.ext hcon)
  · refine List.mem_of_getElem? (i := ticket) ?_
    rw [List.getElem?_take_of_lt (hdone q ticket hmem), hticket]

/-- The messages of some posts, with a record for each. -/
def recordsOf (hS : 0 < S) (xs : List ((Fin G × Fin U) × α)) (records : List UInt64) :
    List (Sent G S × UInt64) :=
  (xs.map fun x => messageOf hS x.1).zip records

theorem map_fst_recordsOf (hS : 0 < S) {xs : List ((Fin G × Fin U) × α)} {records : List UInt64}
    (hlen : records.length = xs.length) :
    (recordsOf hS xs records).map Prod.fst = xs.map fun x => messageOf hS x.1 :=
  List.map_fst_zip (by rw [List.length_map, hlen])

theorem map_snd_recordsOf (hS : 0 < S) {xs : List ((Fin G × Fin U) × α)} {records : List UInt64}
    (hlen : records.length = xs.length) : (recordsOf hS xs records).map Prod.snd = records :=
  List.map_snd_zip (by rw [List.length_map, hlen])

/-- What the service leaves: a record for each of the first `done` posts, among which are all
that have been received, and one for each post in an inbox. -/
def Tested.outcome (h : Tested S a) (ha : a.Inv R) (hS : 0 < S) (hU : 2 ≤ U) {done : ℕ}
    (hdone : ∀ q, ∀ ticket ∈ a.inbox q, ticket < done) {records : List UInt64}
    (hrecords : records.length = (a.posts.take done).length)
    {log : Fin G × Fin U → List UInt64} (hlog : ∀ p, (log p).length = (a.contents p).length) :
    Outcome G U S where
  processed := recordsOf hS (a.posts.take done) records
  received g k := recordsOf hS (a.contents (g, k)) (log (g, k))
  processed_once := by
    rw [map_fst_recordsOf hS hrecords]
    exact (h.nodup_messages ha hS).sublist ((List.take_sublist _ _).map _)
  fanOut := by
    intro g k m hm
    rw [map_fst_recordsOf hS (hlog _)] at hm
    obtain ⟨x, hx, rfl⟩ := List.mem_map.mp hm
    obtain ⟨hgroup, hother, -⟩ := h.due ha hS hdone hx
    exact ⟨hgroup, hother⟩
  logged := by
    intro m hall
    -- there is another member, and it has the message
    obtain ⟨k, hk⟩ : ∃ k : Fin U, (m.2 : ℕ) ≠ k := by
      by_cases hm : (m.2 : ℕ) = 0
      · exact ⟨⟨1, by omega⟩, by simp [hm]⟩
      · exact ⟨⟨0, by omega⟩, hm⟩
    have hmem := hall k hk
    rw [map_fst_recordsOf hS (hlog _)] at hmem
    obtain ⟨x, hx, rfl⟩ := List.mem_map.mp hmem
    obtain ⟨-, -, hfirst, -⟩ := h.due ha hS hdone hx
    rw [map_fst_recordsOf hS hrecords]
    exact List.mem_map_of_mem hfirst

/-- The records that are left, as the logs that the rig opens. -/
theorem logs_eq_testLogs {o : Outcome G U S} {records : List UInt64}
    {log : Fin G × Fin U → List UInt64} (hprocessed : o.processed.map Prod.snd = records)
    (hreceived : ∀ q : Fin G × Fin U, (o.received q.1 q.2).map Prod.snd = log q) :
    o.logs = testLogs records log := by
  simp only [Outcome.logs, testLogs, hprocessed]
  congr 1
  funext i j
  by_cases hi : i < G
  · by_cases hj : j < U
    · rw [dif_pos ⟨hi, hj⟩, dif_pos hi, dif_pos hj]
      exact congrArg some (hreceived (⟨i, hi⟩, ⟨j, hj⟩))
    · rw [dif_neg fun h => hj h.2, dif_pos hi, dif_neg hj]
  · rw [dif_neg fun h => hi h.1, dif_neg hi]

/-- A message has come to a party if something of its author has. -/
theorem Tested.mem_messages_iff (h : Tested S a) (ha : a.Inv R) (hS : 0 < S)
    {p q : Fin G × Fin U} (hp : (p.2 : ℕ) < S) :
    messageOf hS p ∈ (a.contents q).map (fun x => messageOf hS x.1) ↔ a.received q p ≠ [] := by
  rw [Multicast.received, ne_eq, List.filterMap_eq_nil_iff]
  constructor
  · intro hmem hnone
    obtain ⟨x, hx, heq⟩ := List.mem_map.mp hmem
    obtain ⟨ticket, -, hticket, -⟩ := exists_of_mem_contents ha hx
    have hlt := h.lt_of_mem ha (List.mem_of_getElem? hticket)
    obtain rfl := messageOf_inj hS hlt hp heq
    simpa [ofAuthor] using hnone x hx
  · intro hsome
    push Not at hsome
    obtain ⟨x, hx, hauthor⟩ := hsome
    refine List.mem_map.mpr ⟨x, hx, ?_⟩
    unfold ofAuthor at hauthor
    split_ifs at hauthor with hxp
    · rw [hxp]
    · exact absurd rfl hauthor

/-- **The service leaves an outcome**, with a record for each of the first `done` posts and
one for each post in an inbox. -/
theorem exists_outcome (h : Tested S a) (ha : a.Inv (· ≠ ·)) (hS : 0 < S) (hU : 2 ≤ U)
    {done : ℕ} (hdone : ∀ q, ∀ ticket ∈ a.inbox q, ticket < done) {records : List UInt64}
    (hrecords : records.length = (a.posts.take done).length)
    {log : Fin G × Fin U → List UInt64} (hlog : ∀ p, (log p).length = (a.inbox p).length) :
    ∃ o : Outcome G U S, o.NoDuplicates ∧ o.logs = testLogs records log ∧
      ∀ p q : Fin G × Fin U, (p.2 : ℕ) < S →
        (messageOf hS p ∈ (o.received q.1 q.2).map Prod.fst ↔ a.received q p ≠ []) := by
  have hlen : ∀ q, (log q).length = (a.contents q).length := fun q =>
    (hlog q).trans (length_contents ha q).symm
  refine ⟨h.outcome ha hS hU hdone hrecords hlen, fun g k => ?_, ?_, fun p q hp => ?_⟩
  · obtain ⟨xs, hperm, hsub⟩ := ha.contents_subperm (g, k)
    have hnodup := (h.nodup_messages ha hS).sublist (hsub.map _)
    rw [Tested.outcome, map_fst_recordsOf hS (hlen _)]
    exact (hperm.map _).nodup_iff.mp hnodup
  · exact logs_eq_testLogs (map_snd_recordsOf hS hrecords) fun q => map_snd_recordsOf hS (hlen q)
  · rw [Tested.outcome, map_fst_recordsOf hS (hlen _)]
    exact h.mem_messages_iff ha hS hp

end Service

/-! ### The clients of a test -/

namespace Client

variable {args : Arguments} {c d : Client} {now : Timeval} {response : JoinResponse}

/-- The client has not come to its loop, or waits in it for a line. -/
def Parked (c : Client) : Prop := c.next.rank ≤ 8 ∨ c.next = .fgets

/-- In `TEST` mode there is no hello: `main` sends nothing before the first line. -/
theorem main_parked (hmode : args.mode = .test) (h : c.main args now response = some d)
    (hrank : c.next.rank ≤ 8) : d.sent = c.sent ∧ d.Parked := by
  cases hn : c.next
  all_goals simp only [Client.main, hn] at h
  case socket | connect | sendRequest | readResponse | setId | setGroupId =>
    obtain rfl := Option.some.inj h
    exact ⟨rfl, Or.inl (by simp [goto])⟩
  case copyName | copyGroup =>
    obtain ⟨_, -, rfl⟩ := Option.map_eq_some_iff.mp h
    exact ⟨rfl, Or.inl (by simp [goto])⟩
  case setName =>
    obtain ⟨_, -, rfl⟩ := Option.map_eq_some_iff.mp h
    exact ⟨rfl, Or.inr (by simp [goto, hmode])⟩
  all_goals simp [hn] at hrank

end Client

namespace Chat

variable {ι : Type*} {nc n : ℕ} {args : ι → Arguments} {s t : Chat ι nc}

/-- Nobody types anything: no call of `fgets` returns. -/
def Quiet (s : Chat ι nc) : ChatMove ι nc → Prop
  | .main p _ => (s.session p).client.next ≠ .fgets
  | _ => True

instance (s : Chat ι nc) : (m : ChatMove ι nc) → Decidable (s.Quiet m)
  | .main p _ => inferInstanceAs (Decidable ((s.session p).client.next ≠ .fgets))
  | .readResponse _ _ | .sigusr1 _ _ | .receive _ _ _ | .exit _ | .accept _ _ | .readRequest _ _
    | .join _ _ | .respond _ _ | .read _ _ _ | .insert _ _ _ | .depart _ _ | .pop _ | .turn _ =>
      isTrue trivial

variable [DecidableEq ι]

/-- The client is signalled. -/
def signals (p : ι) : ChatMove ι nc → Bool
  | .sigusr1 q _ => q = p
  | _ => false

end Chat

/-- **A step in a test**: a message for a signal, and none else. -/
theorem ChatStep.parked {ι : Type*} [DecidableEq ι] {nc n : ℕ} {args : ι → Arguments}
    {s t : Chat ι nc} {m : ChatMove ι nc} (hstep : ChatStep args s m t) (hinv : s.Inv args n)
    (hmode : ∀ p, (args p).mode = .test) (hG : s.Orderly m) (hquiet : s.Quiet m) {p : ι}
    (hparked : (s.session p).client.Parked) :
    (t.session p).client.sent.length =
        (s.session p).client.sent.length + [m].countP (Chat.signals p) ∧
      (t.session p).client.Parked := by
  -- other sessions stay as they are, and so do clients whose handler goes on
  have hput : ∀ {q : ι} {x : Session} {v : Server nc} {k : ℕ},
      (q = p → x.client.sent.length = (s.session p).client.sent.length + k ∧ x.client.Parked) →
      (q ≠ p → k = 0) →
        (({ s with server := v }.put q x).session p).client.sent.length =
          (s.session p).client.sent.length + k ∧
        (({ s with server := v }.put q x).session p).client.Parked := by
    intro q x v k hown hother
    rw [Chat.session_put]
    split_ifs with hq
    · exact hown hq.symm
    · exact ⟨by rw [hother fun h => hq h.symm]; rfl, hparked⟩
  cases hstep with
  | main _ _ hc =>
    refine hput (fun hq => ?_) fun _ => rfl
    subst hq
    obtain ⟨hsent, hnext⟩ := Client.main_parked (hmode _) hc (hparked.resolve_right hquiet)
    exact ⟨by rw [hsent]; rfl, hnext⟩
  | readResponse _ hnext _ hc =>
    refine hput (fun hq => ?_) fun _ => rfl
    subst hq
    obtain ⟨hsent, hnext⟩ := Client.main_parked (hmode _) hc (by simp [hnext])
    exact ⟨by rw [hsent]; rfl, hnext⟩
  | @sigusr1 q now c hrun hc =>
    refine hput (fun hq => ?_) fun hq => by simp [Chat.signals, hq]
    subst hq
    obtain ⟨message, -, -, -, -, rfl⟩ := Client.handleMy_cases hc
      ((hinv.linked q).wire.connected_of_lt hG)
    exact ⟨by simp [Chat.signals], hparked⟩
  | receive | exit | accept | readRequest | join | respond | read | insert | depart =>
    exact hput (fun hq => by subst hq; exact ⟨rfl, hparked⟩) fun _ => rfl
  | pop | turn => exact ⟨rfl, hparked⟩

namespace Chat

variable {ι : Type*} [DecidableEq ι] {nc n : ℕ} {args : ι → Arguments} {s t : Chat ι nc}
  {input : ι → List UInt8} {ms : List (ChatMove ι nc)}

/-- **In a test every message is one of a signal.** -/
theorem length_sent_of_run (hs : s.Initial n input) (hshort : ∀ p, (args p).Short)
    (hmode : ∀ p, (args p).mode = .test) (hG : (chat nc args).Always Orderly s ms)
    (hquiet : (chat nc args).Always Quiet s ms) (hrun : (chat nc args).run s ms = some t) (p : ι) :
    (t.session p).client.sent.length = ms.countP (signals p) ∧ (t.session p).client.Parked := by
  induction ms using List.reverseRecOn generalizing t with
  | nil =>
    obtain rfl := Option.some.inj hrun
    refine ⟨by simp [(hs.client p).sent], Or.inl ?_⟩
    simp [(hs.client p).next]
  | append_singleton ms m ih =>
    obtain ⟨u, hu, hexec⟩ := StepSystem.run_concat_eq_some.mp hrun
    obtain ⟨hG, hGm⟩ := StepSystem.always_concat.mp hG
    obtain ⟨hquiet, hquietm⟩ := StepSystem.always_concat.mp hquiet
    obtain ⟨hlen, hparked⟩ := ih hG hquiet hu
    have hstep := (step_of_exec hexec).parked (inv_of_run hs.inv hshort hG hu) hmode (hGm u hu)
      (hquietm u hu) hparked
    rw [hlen, ← List.countP_append] at hstep
    exact hstep

end Chat

/-- Line 281 of `server.c`: the messages for which there is a record, written at the end of
their loops. -/
def Server.recorded {nc : ℕ} (s : Server nc) : List ℕ :=
  (List.range s.sent.length).filter fun ticket => ¬s.Pending ticket

/-- Between two loops there is a record for all that has been removed. -/
theorem Server.length_recorded {nc : ℕ} {s : Server nc} (hle : s.popped.length ≤ s.sent.length)
    (hidle : ∀ c, s.consumer c = .idle) : s.recorded.length = s.popped.length := by
  have hiff : ∀ ticket < s.sent.length, ¬s.Pending ticket ↔ ticket < s.popped.length := by
    intro ticket hlt
    refine ⟨fun h => (of_not_pending hlt h).1, fun hpopped hpending => ?_⟩
    obtain ⟨c, hc⟩ := hpending.2 hpopped
    simp [hidle c, Consumer.ticket?] at hc
  obtain ⟨d, hd⟩ := Nat.exists_eq_add_of_le hle
  rw [recorded, hd, List.range_add, List.filter_append, List.filter_eq_self.mpr,
    List.filter_eq_nil_iff.mpr, List.append_nil, List.length_range]
  · intro ticket hticket
    obtain ⟨e, he, rfl⟩ := List.mem_map.mp hticket
    rw [List.mem_range] at he
    have hpending := (hiff (s.popped.length + e) (by omega)).not.mpr (by omega)
    simpa using hpending
  · intro ticket hticket
    rw [List.mem_range] at hticket
    have hended := (hiff ticket (by omega)).mpr hticket
    simpa using hended

/-- The evaluation reads the logs of the test and no others. -/
theorem performTest_congr {logs logs' : LogFiles} (hserver : logs.server = logs'.server)
    (hclient : ∀ i < G, ∀ j < U, logs.client i j = logs'.client i j) (fuel : ℕ) (temp : UInt64)
    (S : ℕ) : performTest fuel temp logs G U S = performTest fuel temp logs' G U S := by
  have hclients : logs.clients G U = logs'.clients G U := by
    refine List.flatMap_congr fun i hi => List.map_congr_left fun j hj => ?_
    exact hclient i (List.mem_range.mp hi) j (List.mem_range.mp hj)
  simp only [performTest, hclients, hserver]

section Verdict

variable {nc n : ℕ} {connections : List (List ClientProcess)}
  {client : Fin G × Fin U → ClientProcess} {s t u : Chat (Fin G × Fin U) nc}
  {input : Fin G × Fin U → List UInt8} {ms pre post : List (ChatMove (Fin G × Fin U) nc)}

/-- The clients of a test have short names. -/
theorem short_clients (hconn : createClients G U = some connections)
    (hclient : ∀ p, clientAt connections p.1 p.2 = some (client p)) (p : Fin G × Fin U) :
    (client p).arguments.Short := by
  obtain ⟨c, hc, huser, hgroup⟩ := exists_clientAt hconn p.1.isLt p.2.isLt
  obtain rfl := Option.some.inj ((hclient p).symm.trans hc)
  exact short_arguments (List.mem_of_getElem? huser) hgroup

/-- The clients of a test are in one group if the rig has them in one. -/
theorem groupName_clients (hconn : createClients G U = some connections)
    (hclient : ∀ p, clientAt connections p.1 p.2 = some (client p)) (p q : Fin G × Fin U) :
    (client p).arguments.groupName = (client q).arguments.groupName ↔ p.1 = q.1 := by
  obtain ⟨c, hc, -, hgroup⟩ := exists_clientAt hconn p.1.isLt p.2.isLt
  obtain rfl := Option.some.inj ((hclient p).symm.trans hc)
  obtain ⟨c, hc, -, hgroup'⟩ := exists_clientAt hconn q.1.isLt q.2.isLt
  obtain rfl := Option.some.inj ((hclient q).symm.trans hc)
  rw [groupName_eq_iff hgroup hgroup', Fin.ext_iff]

/-- The logs that the rig finds at the end. -/
structure Logged (files : Directory) (test : String) (t : Chat (Fin G × Fin U) nc)
    (records : List UInt64) : Prop where
  server : files (serverLogName test) = some records
  length_records : records.length = t.server.recorded.length
  client : ∀ p : Fin G × Fin U, files (logName test p.1 p.2) = some (t.session p).records

/-- There can be such logs whatever the chat is. -/
theorem exists_logged (test : String) (t : Chat (Fin G × Fin U) nc) (records : List UInt64)
    (hrecords : records.length = t.server.recorded.length) :
    ∃ files, Logged files test t records := by
  obtain ⟨files, hfiles⟩ := exists_directory test (testLogs records fun p => (t.session p).records)
  have hclient : ∀ i j, files (logName test i j) =
      (testLogs records fun p => (t.session p).records).client i j := by
    intro i j
    rw [← hfiles]
    rfl
  refine ⟨files, congrArg LogFiles.server hfiles, hrecords, fun p => ?_⟩
  simp only [hclient, testLogs, dif_pos p.1.isLt, dif_pos p.2.isLt]

/-- **What a test leaves behind**, if all clients have joined and no consumer is in a loop. -/
theorem exists_outcome_of_run (hconn : createClients G U = some connections)
    (hclient : ∀ p, clientAt connections p.1 p.2 = some (client p)) (hU : 2 ≤ U) (hS : 0 < S)
    (hs : s.Initial n input)
    (horderly : (chat nc fun p => (client p).arguments).Always Chat.Orderly s ms)
    (hquiet : (chat nc fun p => (client p).arguments).Always Chat.Quiet s ms)
    (hrun : (chat nc fun p => (client p).arguments).run s ms = some t)
    (hsignals : ∀ p, ms.countP (Chat.signals p) = if (p.2 : ℕ) < S then 1 else 0)
    (hjoined : ∀ p, (t.session p).handler.member?.isSome)
    (hidle : ∀ c, t.server.consumer c = .idle) {records : List UInt64}
    (hrecords : records.length = t.server.recorded.length) :
    ∃ o : Outcome G U S, o.NoDuplicates ∧
      o.logs = testLogs records (fun p => (t.session p).records) ∧
        ∀ p q : Fin G × Fin U, (p.2 : ℕ) < S →
          (messageOf hS p ∈ (o.received q.1 q.2).map Prod.fst ↔ t.heard q p ≠ []) := by
  have hshort := short_clients hconn hclient
  have hinv := Chat.inv_of_run hs.inv hshort horderly hrun
  obtain ⟨ns, a, ha, hrefines⟩ := Chat.exists_refines hs hshort horderly hrun
  have hainv := Multicast.inv_of_run Multicast.inv_start ha
  have htested : Tested S a := by
    refine ⟨fun p => ?_, fun p q => ?_⟩
    · rw [hrefines.outbox, List.length_map, ← hsignals p]
      exact (Chat.length_sent_of_run hs hshort (fun _ => rfl) horderly hquiet hrun p).1
    · obtain ⟨j, hj⟩ := Option.isSome_iff_exists.mp (hjoined p)
      obtain ⟨k, hk⟩ := Option.isSome_iff_exists.mp (hjoined q)
      rw [hrefines.group, hrefines.group, hj, hk, Option.map_some, Option.map_some,
        Option.some.injEq, groupName_clients hconn hclient]
  -- what is in an inbox has been removed from the queue, and what has been removed is a post
  have hdone : ∀ q, ∀ ticket ∈ a.inbox q, ticket < t.server.popped.length := by
    intro q ticket hticket
    rw [hrefines.inbox] at hticket
    obtain ⟨x, hx, rfl⟩ := List.mem_map.mp hticket
    unfold Session.mail at hx
    split at hx
    · simp at hx
    · exact (hinv.server.inv.written _ _ _ (mem_letters.mp (List.mem_of_mem_take hx))).1
  have hposts : records.length = (a.posts.take t.server.popped.length).length := by
    have hle := hinv.server.inv.popped_le
    rw [messages, List.length_map] at hle
    rw [hrecords, length_recorded hle hidle, List.length_take, ← hrefines.posts.length_eq,
      Nat.min_eq_left hle]
  have hlog : ∀ p, (t.session p).records.length = (a.inbox p).length := by
    intro p
    rw [hrefines.inbox, List.length_map, (hinv.linked p).length_mail hinv.server, Session.records,
      List.length_map]
  obtain ⟨o, hnodup, hlogs, hreceived⟩ := exists_outcome htested hainv hS hU hdone hposts hlog
  refine ⟨o, hnodup, hlogs, fun p q hp => ?_⟩
  rw [hreceived p q hp, hrefines.received hinv]

/-- The rig evaluates the outcome. -/
theorem Outcome.NoDuplicates.exists_verdict {o : Outcome G U S} (hnodup : o.NoDuplicates)
    (hconn : createClients G U = some connections) (hG : 1 ≤ G) (hU : 2 ≤ U) (hS : 1 ≤ S)
    (hSU : S ≤ U) {files : Directory} {test : String} {records : List UInt64}
    (hfiles : Logged files test t records)
    (hlogs : o.logs = testLogs records fun p => (t.session p).records) (temp : UInt64) :
    ∃ fuel₀, ∀ fuel ≥ fuel₀, ∃ r, performTest fuel temp (files.logs test) G U S = some r ∧
      (r.Warns ↔ G ≠ 1 ∨ ∃ m, ∃ k : Fin U, (m.2 : ℕ) ≠ k ∧
        m ∉ (o.received m.1 k).map Prod.fst) := by
  obtain ⟨fuel₀, hfuel⟩ := exists_performTest temp hG (by omega) hSU
    ((exists_createClients_iff hG (by omega)).mp ⟨connections, hconn⟩) hnodup
  refine ⟨fuel₀, fun fuel hle => ?_⟩
  obtain ⟨r, hr, hwarns⟩ := hfuel fuel hle
  refine ⟨r, ?_, ?_⟩
  · rw [← hr]
    refine performTest_congr ?_ (fun i hi j hj => ?_) fuel temp S
    · rw [hlogs]
      exact hfiles.server
    · simp only [hlogs, testLogs, dif_pos hi, dif_pos hj]
      exact hfiles.client (⟨i, hi⟩, ⟨j, hj⟩)
  · rw [hwarns, hnodup.counts_iff hS hSU, not_and_or]
    push Not
    rfl

/-- A message is missing if some other member of its group has not heard its sender. -/
theorem exists_missing_iff (hS : 0 < S) (hSU : S ≤ U) {o : Outcome G U S}
    (hreceived : ∀ p q : Fin G × Fin U, (p.2 : ℕ) < S →
      (messageOf hS p ∈ (o.received q.1 q.2).map Prod.fst ↔ t.heard q p ≠ [])) :
    (∃ m, ∃ k : Fin U, (m.2 : ℕ) ≠ k ∧ m ∉ (o.received m.1 k).map Prod.fst) ↔
      ∃ p q : Fin G × Fin U, (p.2 : ℕ) < S ∧ p.1 = q.1 ∧ p ≠ q ∧ t.heard q p = [] := by
  constructor
  · rintro ⟨m, k, hne, hmiss⟩
    have hp : ((m.1, ⟨m.2, m.2.isLt.trans_le hSU⟩) : Fin G × Fin U).2.1 < S := m.2.isLt
    have hmessage : messageOf hS (m.1, ⟨m.2, m.2.isLt.trans_le hSU⟩) = m :=
      Prod.ext rfl (Fin.ext (messageOf_val hS hp))
    refine ⟨_, (m.1, k), hp, rfl, fun hcon => hne (congrArg (fun x => (x.2 : ℕ)) hcon), ?_⟩
    by_contra hheard
    have hmem := (hreceived _ (m.1, k) hp).mpr hheard
    rw [hmessage] at hmem
    exact hmiss hmem
  · rintro ⟨p, q, hp, hgroup, hne, hnone⟩
    refine ⟨messageOf hS p, q.2, ?_, fun hmem => ?_⟩
    · rw [messageOf_val hS hp]
      exact fun hcon => hne (Prod.ext hgroup (Fin.ext hcon))
    · have hgroup' : (messageOf hS p).1 = q.1 := hgroup
      rw [hgroup'] at hmem
      exact (hreceived p q hp).mp hmem hnone

/-- **The verdict of the rig.** The clients that the rig has started chat while nobody types
anything, and the first `S` of each group are signalled once. If all clients have joined, and
the rig kills the server when no consumer is in a loop, then the rig comes to its warnings,
and it warns if and only if there is more than one group or some message has not been handled
by another member of its group. -/
theorem test_verdict (hconn : createClients G U = some connections)
    (hclient : ∀ p, clientAt connections p.1 p.2 = some (client p)) (hG : 1 ≤ G) (hU : 2 ≤ U)
    (hS : 1 ≤ S) (hSU : S ≤ U) (hs : s.Initial n input)
    (horderly : (chat nc fun p => (client p).arguments).Always Chat.Orderly s ms)
    (hquiet : (chat nc fun p => (client p).arguments).Always Chat.Quiet s ms)
    (hrun : (chat nc fun p => (client p).arguments).run s ms = some t)
    (hsignals : ∀ p, ms.countP (Chat.signals p) = if (p.2 : ℕ) < S then 1 else 0)
    (hjoined : ∀ p, (t.session p).handler.member?.isSome)
    (hidle : ∀ c, t.server.consumer c = .idle) {files : Directory} {test : String}
    {records : List UInt64} (hfiles : Logged files test t records) (temp : UInt64) :
    ∃ fuel₀, ∀ fuel ≥ fuel₀, ∃ r, performTest fuel temp (files.logs test) G U S = some r ∧
      (r.Warns ↔ G ≠ 1 ∨ ∃ p q : Fin G × Fin U, (p.2 : ℕ) < S ∧ p.1 = q.1 ∧ p ≠ q ∧
        t.heard q p = []) := by
  obtain ⟨o, hnodup, hlogs, hreceived⟩ := exists_outcome_of_run hconn hclient hU hS hs horderly
    hquiet hrun hsignals hjoined hidle hfiles.length_records
  have hverdict := hnodup.exists_verdict hconn hG hU hS hSU hfiles hlogs temp
  rwa [exists_missing_iff hS hSU hreceived] at hverdict

/-- The client that is signalled in the smallest test. -/
def first : Fin 1 × Fin 2 := (⟨0, Nat.one_pos⟩, ⟨0, Nat.two_pos⟩)

/-- The other client. -/
def second : Fin 1 × Fin 2 := (⟨0, Nat.one_pos⟩, ⟨1, Nat.one_lt_two⟩)

/-- The two clients. -/
def pair (p : Fin 1 × Fin 2) : ClientProcess :=
  ⟨if (p.2 : ℕ) = 0 then "Rishabh" else "Vaibhav", "Emerald"⟩

theorem createClients_pair : createClients 1 2 = some [[pair first, pair second]] := by
  decide

theorem clientAt_pair : ∀ p : Fin 1 × Fin 2,
    clientAt [[pair first, pair second]] p.1 p.2 = some (pair p) := by
  decide

/-- The message of the first client. -/
def heartFrom : List UInt8 :=
  List.replicate 24 0 ++ Chat.nameField (pair first).arguments.name ++
    (heartText ++ List.replicate 172 0)

/-- Both clients join. -/
def pairJoins : List (ChatMove (Fin 1 × Fin 2) nc) :=
  Chat.joins (fun p => (pair p).arguments) first 5 0 ++
    Chat.joins (fun p => (pair p).arguments) second 6 1 ++ List.replicate 3 (.main first ⟨0, 0⟩)

/-- The first client is signalled, and its message is written to the other. -/
def pairPasses (c : Fin nc) : List (ChatMove (Fin 1 × Fin 2) nc) :=
  [.sigusr1 first ⟨0, 0⟩, .read first 0 (.data heartFrom), .insert first 0 ⟨0, 0⟩, .pop c,
    .turn c, .turn c, .turn c]

/-- The rig kills the other client before it has read the message, and warns. -/
theorem test_verdict_killed :
    ∃ t, (chat 1 fun p => (pair p).arguments).run (Chat.start 1 (newQueue 1) fun _ => [])
        (pairJoins ++ pairPasses 0) = some t ∧
      ∃ files, Logged files "Test" t [3] ∧ ∃ fuel₀, ∀ fuel ≥ fuel₀,
        ∃ r, performTest fuel 0 (files.logs "Test") 1 2 1 = some r ∧ r.Warns := by
  obtain ⟨t, hrun, hjoined, hidle, hlen, hmiss⟩ : ∃ t, (chat 1 fun p => (pair p).arguments).run
      (Chat.start 1 (newQueue 1) fun _ => []) (pairJoins ++ pairPasses 0) = some t ∧
        (∀ p, (t.session p).handler.member?.isSome) ∧ (∀ c, t.server.consumer c = .idle) ∧
        t.server.recorded.length = 1 ∧ t.heard second first = [] :=
    StepSystem.exists_run (by decide +kernel)
  obtain ⟨files, hfiles⟩ := exists_logged "Test" t [3] hlen.symm
  obtain ⟨fuel₀, hverdict⟩ := test_verdict createClients_pair clientAt_pair le_rfl le_rfl le_rfl
    (by omega) (Chat.initial_start (exists_initQueue_newQueue (by decide)) fun _ => [])
    (by decide +kernel) (by decide +kernel) hrun (by decide +kernel) hjoined hidle hfiles 0
  refine ⟨t, hrun, files, hfiles, fuel₀, fun fuel hfuel => ?_⟩
  obtain ⟨r, hr, hwarns⟩ := hverdict fuel hfuel
  exact ⟨r, hr, hwarns.mpr (Or.inr ⟨first, second, by decide, rfl, by decide, hmiss⟩)⟩

/-- Before the first signal nothing has been removed. -/
theorem popped_eq_nil (hs : s.Initial n input) (hshort : ∀ p, (client p).arguments.Short)
    (horderly : (chat nc fun p => (client p).arguments).Always Chat.Orderly s ms)
    (hquiet : (chat nc fun p => (client p).arguments).Always Chat.Quiet s ms)
    (hrun : (chat nc fun p => (client p).arguments).run s ms = some t)
    (hsilent : ∀ p, ms.countP (Chat.signals p) = 0) : t.server.popped = [] := by
  have hinv := Chat.inv_of_run hs.inv hshort horderly hrun
  obtain ⟨ns, a, ha, hrefines⟩ := Chat.exists_refines hs hshort horderly hrun
  have hposts : a.posts = [] := by
    refine List.eq_nil_iff_forall_not_mem.mpr fun x hx => ?_
    have hposted : x.2 ∈ a.posted x.1 := List.mem_filterMap.mpr ⟨x, hx, if_pos rfl⟩
    have hsaid := ((Multicast.inv_of_run Multicast.inv_start ha).posted x.1).subset hposted
    rw [hrefines.outbox] at hsaid
    have hlen := (Chat.length_sent_of_run hs hshort (fun _ => rfl) horderly hquiet hrun x.1).1
    rw [hsilent, List.length_eq_zero_iff] at hlen
    simp [hlen] at hsaid
  have hle := hinv.server.inv.popped_le
  rw [messages, List.length_map, hrefines.posts.length_eq, hposts] at hle
  exact List.length_eq_zero_iff.mp (Nat.le_zero.mp hle)

/-- **The verdict of a test that comes to rest.** If the rig waits long enough, so that all
clients have joined before the first signal, and all of them run, have their responses and
have nothing left to do when it kills the server, it warns if and only if there is more than
one group. -/
theorem settled_test_verdict (hconn : createClients G U = some connections)
    (hclient : ∀ p, clientAt connections p.1 p.2 = some (client p)) (hG : 1 ≤ G) (hU : 2 ≤ U)
    (hS : 1 ≤ S) (hSU : S ≤ U) (hs : s.Initial n input)
    (horderly : (chat nc fun p => (client p).arguments).Always Chat.Orderly s (pre ++ post))
    (hquiet : (chat nc fun p => (client p).arguments).Always Chat.Quiet s (pre ++ post))
    (hpre : (chat nc fun p => (client p).arguments).run s pre = some u)
    (hpost : (chat nc fun p => (client p).arguments).run u post = some t)
    (hjoined : ∀ p, (u.session p).handler.member?.isSome)
    (hsilent : ∀ p, pre.countP (Chat.signals p) = 0)
    (hsignals : ∀ p, post.countP (Chat.signals p) = if (p.2 : ℕ) < S then 1 else 0)
    (hsettled : t.Settled) (hready : ∀ p, (t.session p).Running ∧ (t.session p).Answered)
    {files : Directory} {test : String} {records : List UInt64}
    (hfiles : Logged files test t records) (temp : UInt64) :
    ∃ fuel₀, ∀ fuel ≥ fuel₀, ∃ r, performTest fuel temp (files.logs test) G U S = some r ∧
      (r.Warns ↔ G ≠ 1) := by
  have hshort := short_clients hconn hclient
  have hrun := StepSystem.run_append_eq_some.mpr ⟨u, hpre, hpost⟩
  have hinvu := Chat.inv_of_run hs.inv hshort (StepSystem.always_append.mp horderly).1 hpre
  have hstays : ∀ p, (t.session p).handler.member?.isSome := by
    intro p
    obtain ⟨k, hk⟩ := Option.isSome_iff_exists.mp (hjoined p)
    rw [Chat.member_of_run hinvu hshort ((StepSystem.always_append.mp horderly).2 u hpre) hpost hk]
    rfl
  have hcount : ∀ p, (pre ++ post).countP (Chat.signals p) = if (p.2 : ℕ) < S then 1 else 0 := by
    intro p
    rw [List.countP_append, hsilent, hsignals, zero_add]
  have hnone := popped_eq_nil hs hshort (StepSystem.always_append.mp horderly).1
    (StepSystem.always_append.mp hquiet).1 hpre hsilent
  obtain ⟨o, hnodup, hlogs, hreceived⟩ := exists_outcome_of_run hconn hclient hU hS hs horderly
    hquiet hrun hcount hstays hsettled.idle hfiles.length_records
  have hverdict := hnodup.exists_verdict hconn hG hU hS hSU hfiles hlogs temp
  rw [exists_missing_iff hS hSU hreceived] at hverdict
  -- everybody has heard what the others of its group have sent
  have hall : ¬∃ p q : Fin G × Fin U, (p.2 : ℕ) < S ∧ p.1 = q.1 ∧ p ≠ q ∧ t.heard q p = [] := by
    rintro ⟨p, q, hp, hgroup, hne, hmiss⟩
    have hheard := Chat.heard_perm hs hshort horderly hpre hpost hsettled hne
      ((groupName_clients hconn hclient p q).mpr hgroup) (hjoined q) (hready q).1 (hready q).2
      (by simp [Chat.before, hnone])
    have hlen := (Chat.length_sent_of_run hs hshort (fun _ => rfl) horderly hquiet hrun p).1
    rw [hcount, if_pos hp] at hlen
    have hempty := hheard.length_eq
    rw [hmiss, List.length_map, hlen] at hempty
    simp at hempty
  simpa only [hall, or_false] using hverdict

/-- The other client reads the message, and the rig does not warn. -/
theorem settled_test_verdict_read :
    ∃ t, (chat 1 fun p => (pair p).arguments).run (Chat.start 1 (newQueue 1) fun _ => [])
        (pairJoins ++ (pairPasses 0 ++ [.receive second (.data heartFrom) ⟨0, 3⟩])) = some t ∧
      ∃ files, Logged files "Test" t [3] ∧ ∃ fuel₀, ∀ fuel ≥ fuel₀,
        ∃ r, performTest fuel 0 (files.logs "Test") 1 2 1 = some r ∧ ¬r.Warns := by
  obtain ⟨u, hpre, hjoined⟩ : ∃ u, (chat 1 fun p => (pair p).arguments).run
      (Chat.start 1 (newQueue 1) fun _ => []) pairJoins = some u ∧
        ∀ p, (u.session p).handler.member?.isSome :=
    StepSystem.exists_run (by decide +kernel)
  obtain ⟨t, hrun, hsettled, hready, hlen⟩ : ∃ t, (chat 1 fun p => (pair p).arguments).run
      (Chat.start 1 (newQueue 1) fun _ => [])
        (pairJoins ++ (pairPasses 0 ++ [.receive second (.data heartFrom) ⟨0, 3⟩])) = some t ∧
          t.Settled ∧ (∀ p, (t.session p).Running ∧ (t.session p).Answered) ∧
            t.server.recorded.length = 1 :=
    StepSystem.exists_run (by decide +kernel)
  obtain ⟨u', hpre', hpost⟩ := StepSystem.run_append_eq_some.mp hrun
  obtain rfl := Option.some.inj (hpre.symm.trans hpre')
  obtain ⟨files, hfiles⟩ := exists_logged "Test" t [3] hlen.symm
  obtain ⟨fuel₀, hverdict⟩ := settled_test_verdict createClients_pair clientAt_pair le_rfl le_rfl
    le_rfl (by omega) (Chat.initial_start (exists_initQueue_newQueue (by decide)) fun _ => [])
    (by decide +kernel) (by decide +kernel) hpre hpost hjoined (by decide +kernel)
    (by decide +kernel) hsettled hready hfiles 0
  refine ⟨t, hrun, files, hfiles, fuel₀, fun fuel hfuel => ?_⟩
  obtain ⟨r, hr, hwarns⟩ := hverdict fuel hfuel
  exact ⟨r, hr, fun hcon => hwarns.mp hcon rfl⟩

end Verdict

end GroupChat
