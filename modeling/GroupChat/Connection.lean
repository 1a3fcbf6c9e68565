import GroupChat.Library.Framing
import GroupChat.Server.Handshake

/-!
# The two ends of a connection

How `server.c` and `client.c` take records off a connection. Both read one record
first – the server a `GroupChat.JoinRequest`, the client a `GroupChat.JoinResponse` –
and messages from then on, each with a single call of `read` whose result is looked at
only for being `0`. That is `Framing.readRecords` twice, and what it says about whole
calls and short ones holds for both (`GroupChat.framing_iff`). A message that comes in
two pieces is taken for two messages (`GroupChat.exists_message_in_two_pieces`).

With calls that are whole, the client's end fits the server's: on an aligned stream
the client takes over the response that was written for it and handles the messages
that were written after it (`GroupChat.Server.Aligned.connectionHandler`). On a stream
that begins with a message it takes over the identity of the sender
(`GroupChat.Client.connectionHandler_of_message`).
-/

namespace GroupChat

open Framing

/-! ### The two handlers -/

/-- The reads of `connection_handler` in `server.c`, lines 182 to 187 and 227 to 238:
the join data it uses, and the messages it passes to `insert_queue`. The two variables
hold anything at first. -/
def Server.connectionHandler (request : Vector UInt8 joinRequestCodec.size)
    (message : Vector UInt8 messageCodec.size) (results : List ReadResult) :
    Option JoinRequest × List Message :=
  readRecords joinRequestCodec messageCodec request.toList message.toList results

/-- The reads of `client.c`, line 91 of `main` and lines 163 to 186 of
`connection_handler`: the response it takes over, and the messages it handles. -/
def Client.connectionHandler (response : Vector UInt8 joinResponseCodec.size)
    (message : Vector UInt8 messageCodec.size) (results : List ReadResult) :
    Option JoinResponse × List Message :=
  readRecords joinResponseCodec messageCodec response.toList message.toList results

/-- **Framing.** A client writes a join request and messages, the server a response and
messages, and `read` gives the bytes in any pieces and may end them anywhere. After every
call the server has used and inserted the records it has received as a whole, in their
order and nothing else, if and only if the first call and then all calls up to the first
`0` return as many bytes as they were asked for. The same goes for the messages that the
client handles, where the first call does not matter as long as it handles none. -/
theorem framing_iff {request : JoinRequest} {response : JoinResponse} {sent written : List Message}
    {results results' : List ReadResult} (requestMemory : Vector UInt8 joinRequestCodec.size)
    (responseMemory : Vector UInt8 joinResponseCodec.size)
    (messageMemory messageMemory' : Vector UInt8 messageCodec.size)
    (hserver : Fragments joinRequestCodec messageCodec request sent results)
    (hclient : Fragments joinResponseCodec messageCodec response written results') :
    ((∀ pre, pre <+: results → Server.connectionHandler requestMemory messageMemory pre =
        (wholeFirst joinRequestCodec request (received pre).length,
          wholeRecords joinRequestCodec messageCodec sent (received pre).length)) ↔
      (∀ result ∈ results.head?, result.count = joinRequestCodec.size) ∧
        ∀ result ∈ untilEnd results.tail, result.count = messageCodec.size) ∧
    ((∀ pre, pre <+: results' → (Client.connectionHandler responseMemory messageMemory' pre).2 =
        wholeRecords joinResponseCodec messageCodec written (received pre).length) ↔
      ∀ result ∈ untilEnd results'.tail, result.count = messageCodec.size ∧
        ∀ result ∈ results'.head?, result.count = joinResponseCodec.size) := by
  have hrequest := first_eq_iff requestMemory.toList messageMemory.toList (by decide)
    requestMemory.length_toList hserver
  have hsent := records_eq_iff requestMemory.toList messageMemory.toList (by decide) (by decide)
    messageMemory.length_toList hserver
  have hwritten := records_eq_iff responseMemory.toList messageMemory'.toList (by decide)
    (by decide) messageMemory'.length_toList hclient
  refine ⟨⟨?_, ?_⟩, hwritten⟩
  · intro hall
    have hfst := hrequest.mp fun pre hpre => congrArg Prod.fst (hall pre hpre)
    have hsnd := hsent.mp fun pre hpre => congrArg Prod.snd (hall pre hpre)
    exact ⟨hfst, fun result hresult => (hsnd result hresult).1⟩
  · rintro ⟨hhead, hloop⟩ pre hpre
    exact Prod.ext (hrequest.mpr hhead pre hpre)
      (hsent.mpr (fun result hresult => ⟨hloop result hresult, hhead⟩) pre hpre)

/-- The calls that return a first record and others as they were written, and then `0`. -/
def wholeCalls {α β : Type*} (H : ByteLayout.RecordCodec α) (R : ByteLayout.RecordCodec β)
    (first : α) (records : List β) : List ReadResult :=
  .data (H.encode first) :: (records.map (fun record => .data (R.encode record)) ++ [.eof])

theorem received_wholeCalls {α β : Type*} (H : ByteLayout.RecordCodec α)
    (R : ByteLayout.RecordCodec β) (first : α) (records : List β) :
    received (wholeCalls H R first records) = H.encode first ++ R.encodeAll records := by
  rw [wholeCalls, received_data]
  congr 1
  induction records with
  | nil => rfl
  | cons record records ih =>
    rw [List.map_cons, List.cons_append, received_data, ih, ByteLayout.RecordCodec.encodeAll_cons]

theorem fragments_wholeCalls {α β : Type*} {H : ByteLayout.RecordCodec α}
    {R : ByteLayout.RecordCodec β} (hH : 1 ≤ H.size) (hR : 1 ≤ R.size) (first : α)
    (records : List β) : Fragments H R first records (wholeCalls H R first records) where
  inOrder := by rw [received_wholeCalls]
  first := by simpa [wholeCalls, ReadResult.Within] using hH
  later := by
    simp only [wholeCalls, List.tail_cons, List.mem_append, List.mem_map, List.mem_singleton]
    rintro _ (⟨record, -, rfl⟩ | rfl)
    · simpa [ReadResult.Within] using hR
    · trivial

/-- Two messages each way. -/
theorem framing_iff_wholeCalls :
    Server.connectionHandler (Vector.replicate _ 0) (Vector.replicate _ 0)
        (wholeCalls joinRequestCodec messageCodec (.letter 97) [.blank 0 0, .blank 3 1]) =
      (some (.letter 97), [.blank 0 0, .blank 3 1]) ∧
    (Client.connectionHandler (Vector.replicate _ 0) (Vector.replicate _ 0)
        (wholeCalls joinResponseCodec messageCodec ⟨0, 0⟩ [.blank 1 0, .blank 2 0])).2 =
      [.blank 1 0, .blank 2 0] := by
  obtain ⟨hserver, hclient⟩ := framing_iff (Vector.replicate _ 0) (Vector.replicate _ 0)
    (Vector.replicate _ 0) (Vector.replicate _ 0)
    (fragments_wholeCalls (by decide) (by decide) (.letter 97) [.blank 0 0, .blank 3 1])
    (fragments_wholeCalls (by decide) (by decide) ⟨0, 0⟩ [.blank 1 0, .blank 2 0])
  have hboth := hserver.mpr (by simp [wholeCalls, untilEnd, ReadResult.count]) _
    (List.prefix_refl _)
  have htwo := hclient.mpr (by simp [wholeCalls, untilEnd, ReadResult.count]) _
    (List.prefix_refl _)
  rw [received_wholeCalls, wholeFirst_length, wholeRecords_length (by decide)] at hboth
  rw [received_wholeCalls, wholeRecords_length (by decide)] at htwo
  exact ⟨hboth, htwo⟩

/-- **A message in two pieces.** That the messages inserted are those received as a whole
is not so: a message of which one call returns the first hundred bytes, and the next call
the rest, is taken for two. -/
theorem exists_message_in_two_pieces :
    ¬∀ (request : JoinRequest) (sent : List Message) (results : List ReadResult)
        (requestMemory : Vector UInt8 joinRequestCodec.size)
        (messageMemory : Vector UInt8 messageCodec.size),
      Fragments joinRequestCodec messageCodec request sent results →
      Server.connectionHandler requestMemory messageMemory results =
        (wholeFirst joinRequestCodec request (received results).length,
          wholeRecords joinRequestCodec messageCodec sent (received results).length) := by
  intro hall
  have hfragments : Fragments joinRequestCodec messageCodec (.letter 97) [.blank 0 0]
      [.data (joinRequestCodec.encode (.letter 97)),
        .data ((messageCodec.encode (.blank 0 0)).take 100),
        .data ((messageCodec.encode (.blank 0 0)).drop 100)] := by
    refine ⟨by simp, ?_, ?_⟩
    · simp only [List.head?_cons, Option.mem_some_iff, forall_eq', ReadResult.Within,
        joinRequestCodec.length_encode]
      decide
    · simp only [List.tail_cons, List.forall_mem_cons, ReadResult.Within, List.length_take,
        List.length_drop, messageCodec.length_encode, List.not_mem_nil, false_imp_iff,
        forall_true_iff]
      decide
  have hlength := congrArg (fun handled => handled.2.length)
    (hall _ _ _ (Vector.replicate _ 0) (Vector.replicate _ 0) hfragments)
  -- two calls of the loop, and one message
  simp only [Server.connectionHandler, readRecords, length_readLoop, wholeRecords,
    List.length_take] at hlength
  simp only [untilEnd, List.length_cons, List.length_nil] at hlength
  omega

/-! ### The client on the stream of the server -/

/-- A client that reads the beginning of a message for its response takes the sender's id
and group for its own. -/
theorem Client.connectionHandler_of_message (response : Vector UInt8 joinResponseCodec.size)
    (message : Vector UInt8 messageCodec.size) (m : Message) (rest : List UInt8) :
    (Client.connectionHandler response message
      [.data ((messageCodec.encode m ++ rest).take joinResponseCodec.size)]).1 =
        some ⟨m.id, m.groupId⟩ := by
  have hlength : ((messageCodec.encode m ++ rest).take joinResponseCodec.size).length =
      response.toList.length := by
    rw [List.length_take, List.length_append, messageCodec.length_encode, response.length_toList]
    exact Nat.min_eq_left (Nat.le_trans (by decide) (Nat.le_add_right messageCodec.size _))
  rw [Client.connectionHandler, readRecords, deposit_of_length hlength]
  exact congrArg some (decode_joinResponse_message m rest)

/-- **The client's end fits.** On a stream that is aligned for a response, a client whose
calls are whole takes over this response, and handles the messages of the stream. -/
theorem Server.Aligned.connectionHandler {j : JoinResponse} {bytes : List UInt8}
    (h : Server.Aligned j bytes) (hne : bytes ≠ []) :
    ∃ written : List Message,
      bytes = joinResponseCodec.encode j ++ messageCodec.encodeAll written ∧
      ∀ (results : List ReadResult) (response : Vector UInt8 joinResponseCodec.size)
        (message : Vector UInt8 messageCodec.size),
        Fragments joinResponseCodec messageCodec j written results →
        (∀ result ∈ results.head?, result.count = joinResponseCodec.size) →
        (∀ result ∈ untilEnd results.tail, result.count = messageCodec.size) →
        Client.connectionHandler response message results =
          (wholeFirst joinResponseCodec j (received results).length,
            wholeRecords joinResponseCodec messageCodec written (received results).length) := by
  obtain ⟨written, rfl⟩ := h.resolve_left hne
  refine ⟨written, rfl, ?_⟩
  intro results response message hfragments hhead hloop
  have hfirst := (first_eq_iff response.toList message.toList (by decide) response.length_toList
    hfragments).mpr hhead results (List.prefix_refl _)
  have hrecords := (records_eq_iff response.toList message.toList (by decide) (by decide)
    message.length_toList hfragments).mpr (fun result hresult => ⟨hloop result hresult, hhead⟩)
    results (List.prefix_refl _)
  exact Prod.ext hfirst hrecords

end GroupChat
