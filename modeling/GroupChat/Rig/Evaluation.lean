import GroupChat.Rig.Model

/-!
# The evaluation of the logs

When a test is over `performTest` reads all logs, counts and adds up the records, compares
the counts and prints the averages (`GroupChat.evaluateLogs`). Two things are not looked
at: whether a log could be opened, and whether there is anything to average. `read` returns
`-1` on the descriptor of a missing file, which is not the `0` that ends a loop; and an
average over no records is a division by zero.

So the evaluation completes (`GroupChat.Completes`) exactly if all logs are there, with a
record of the server and one of the clients at least, and nothing overflows
(`GroupChat.LogFiles.Evaluable`, `GroupChat.completes_iff`). A test of a single client never
gets that far, whatever the processes do (`GroupChat.Outcome.not_completes`).
-/

namespace GroupChat

open CInt

/-! ### What the evaluation comes to -/

/-- The counters, and what is printed and returned. -/
structure Evaluation where
  delaySum : UInt64
  count : ℤ
  serverDelaySum : UInt64
  serverCount : ℤ
  report : Report
deriving DecidableEq

/-- Lines 264 to 298: `performTest` from the first log to its end. -/
def evaluateLogs (fuel : ℕ) (temp : UInt64) (logs : LogFiles)
    (groupCount userCount simultaneousUsers : ℕ) : Option Evaluation := do
  let (delaySum, count) ← readLogs fuel temp (logs.clients groupCount userCount) (0, 0)
  let (serverDelaySum, serverCount) ← readLog fuel logs.server temp (0, 0)
  let messages ← mul intBits groupCount simultaneousUsers
  let expected ← mul intBits messages ((userCount : ℤ) - 1)
  return ⟨delaySum, count, serverDelaySum, serverCount,
    reportAverages (lossCheck simultaneousUsers serverCount expected count)
      serverDelaySum serverCount delaySum count⟩

/-- **A test ends with the evaluation** of its logs. -/
theorem performTest_eq_evaluateLogs (fuel : ℕ) (temp : UInt64) (logs : LogFiles) (G U S : ℕ) :
    performTest fuel temp logs G U S =
      (createClients G U).bind fun connections => (signalClients connections S).bind fun _ =>
        (evaluateLogs fuel temp logs G U S).map Evaluation.report := by
  rw [performTest, Option.bind_eq_bind]
  refine Option.bind_congr fun connections _ => ?_
  rw [Option.bind_eq_bind]
  refine Option.bind_congr fun signalled _ => ?_
  rw [evaluateLogs]
  rcases readLogs fuel temp (logs.clients G U) (0, 0) with _ | ⟨delaySum, count⟩
  · rfl
  rcases readLog fuel logs.server temp (0, 0) with _ | ⟨serverDelaySum, serverCount⟩
  · rfl
  rcases mul intBits G S with _ | messages
  · rfl
  rcases hexpected : mul intBits messages ((U : ℤ) - 1) with _ | expected
  · simp only [Option.bind_eq_bind, Option.bind_some, hexpected, Option.bind_none, Option.map_none]
  · simp only [Option.bind_eq_bind, Option.bind_some, hexpected]
    rfl

/-! ### What is in the logs -/

/-- The records in a log, and none in a missing one. -/
def records (fd : LogFile) : List UInt64 := fd.getD []

/-- The records of all clients. -/
def LogFiles.clientRecords (logs : LogFiles) (groupCount userCount : ℕ) : List UInt64 :=
  (logs.clients groupCount userCount).flatMap records

/-- The records of the server. -/
def LogFiles.serverRecords (logs : LogFiles) : List UInt64 := records logs.server

/-- The sum of some records, however large. -/
def total (xs : List UInt64) : ℕ := (xs.map UInt64.toNat).sum

/-- The counters hold the sums and the numbers of the records. -/
structure Evaluation.Exact (e : Evaluation) (logs : LogFiles) (groupCount userCount : ℕ) :
    Prop where
  delaySum : e.delaySum.toNat = total (logs.clientRecords groupCount userCount)
  count : e.count = (logs.clientRecords groupCount userCount).length
  serverDelaySum : e.serverDelaySum.toNat = total logs.serverRecords
  serverCount : e.serverCount = logs.serverRecords.length

/-- What the evaluation comes to where it comes to an end. -/
def LogFiles.evaluation (logs : LogFiles) (groupCount userCount simultaneousUsers : ℕ) :
    Evaluation where
  delaySum := (logs.clientRecords groupCount userCount).foldl (· + ·) 0
  count := (logs.clientRecords groupCount userCount).length
  serverDelaySum := logs.serverRecords.foldl (· + ·) 0
  serverCount := logs.serverRecords.length
  report := reportAverages
    (lossCheck simultaneousUsers logs.serverRecords.length
      (groupCount * simultaneousUsers * (userCount - 1) : ℕ)
      (logs.clientRecords groupCount userCount).length)
    (logs.serverRecords.foldl (· + ·) 0) logs.serverRecords.length
    ((logs.clientRecords groupCount userCount).foldl (· + ·) 0)
    (logs.clientRecords groupCount userCount).length

/-- **Logs that can be read**: they are all there, and an `int` can hold the numbers of their
records and of the copies that are expected. -/
structure LogFiles.Readable (logs : LogFiles) (groupCount userCount simultaneousUsers : ℕ) :
    Prop where
  server_present : logs.server.isSome
  client_present : ∀ i < groupCount, ∀ j < userCount, (logs.client i j).isSome
  server_length : logs.serverRecords.length < 2 ^ 31
  client_length : (logs.clientRecords groupCount userCount).length < 2 ^ 31
  messages : groupCount * simultaneousUsers < 2 ^ 31
  copies : groupCount * simultaneousUsers * (userCount - 1) < 2 ^ 31

/-- **Logs that can be evaluated**: besides, the server has left a record and some client
has, and an `unsigned long` can hold the sums. -/
structure LogFiles.Evaluable (logs : LogFiles) (groupCount userCount simultaneousUsers : ℕ) :
    Prop extends logs.Readable groupCount userCount simultaneousUsers where
  server_ne_nil : logs.serverRecords ≠ []
  client_ne_nil : logs.clientRecords groupCount userCount ≠ []
  server_total : total logs.serverRecords < 2 ^ 64
  client_total : total (logs.clientRecords groupCount userCount) < 2 ^ 64

/-- **The evaluation completes**: the loops come to an end, with the sums and the numbers of
the records in the counters, and nothing is divided by zero. -/
def Completes (temp : UInt64) (logs : LogFiles) (groupCount userCount simultaneousUsers : ℕ) :
    Prop :=
  ∃ e : Evaluation,
    (∃ fuel₀, ∀ fuel ≥ fuel₀,
      evaluateLogs fuel temp logs groupCount userCount simultaneousUsers = some e) ∧
    e.Exact logs groupCount userCount ∧ e.report.result.isSome

variable {fuel : ℕ} {temp : UInt64} {logs : LogFiles} {G U S : ℕ} {e : Evaluation}

/-! ### The loops -/

theorem mem_clients {fd : LogFile} :
    fd ∈ logs.clients G U ↔ ∃ i < G, ∃ j < U, logs.client i j = fd := by
  simp only [LogFiles.clients, List.mem_flatMap, List.mem_map, List.mem_range]

/-- The server's log is read to its end if it is there. -/
theorem readLog_server_iff {result : UInt64 × ℤ} :
    readLog fuel logs.server temp (0, 0) = some result ↔
      logs.server.isSome ∧ logs.serverRecords.length < fuel ∧
        logs.serverRecords.length < 2 ^ 31 ∧
        (logs.serverRecords.foldl (· + ·) 0, (logs.serverRecords.length : ℤ)) = result := by
  rw [readLog_eq_some_iff le_rfl (by decide)]
  simp only [Int.zero_add, fits_natCast_iff]
  constructor
  · rintro ⟨xs, hxs, h⟩
    rw [LogFiles.serverRecords, hxs]
    exact ⟨rfl, h⟩
  · rintro ⟨hsome, h⟩
    obtain ⟨xs, hxs⟩ := Option.isSome_iff_exists.mp hsome
    rw [LogFiles.serverRecords, hxs] at h
    exact ⟨xs, hxs, h⟩

/-- The clients' logs are read to their ends if they are all there. -/
theorem readLogs_clients_iff {result : UInt64 × ℤ} :
    readLogs fuel temp (logs.clients G U) (0, 0) = some result ↔
      (∀ i < G, ∀ j < U, (logs.client i j).isSome) ∧
        (∀ fd ∈ logs.clients G U, (records fd).length < fuel) ∧
        (logs.clientRecords G U).length < 2 ^ 31 ∧
        ((logs.clientRecords G U).foldl (· + ·) 0, ((logs.clientRecords G U).length : ℤ)) =
          result := by
  rw [readLogs_eq_some_iff le_rfl (by decide)]
  simp only [Int.zero_add, fits_natCast_iff]
  -- a list of open logs is known by the records in them
  have hopen : ∀ xss : List (List UInt64), (xss.map some).map records = xss := by
    intro xss
    rw [List.map_map]
    exact List.map_id xss
  have hflat : logs.clientRecords G U = ((logs.clients G U).map records).flatten :=
    List.flatMap_def
  constructor
  · rintro ⟨xss, hxss, hfuel, h⟩
    have hrecords : (logs.clients G U).map records = xss := by rw [hxss, hopen]
    rw [hflat, hrecords]
    refine ⟨fun i hi j hj => ?_, fun fd hfd => ?_, h⟩
    · have hmem : logs.client i j ∈ logs.clients G U := mem_clients.mpr ⟨i, hi, j, hj, rfl⟩
      rw [hxss] at hmem
      obtain ⟨xs, -, hxs⟩ := List.mem_map.mp hmem
      rw [← hxs, Option.isSome_some]
    · exact hfuel _ (hrecords ▸ List.mem_map_of_mem hfd)
  · rintro ⟨hpresent, hfuel, h⟩
    rw [hflat] at h
    refine ⟨(logs.clients G U).map records, ?_, ?_, h⟩
    · rw [List.map_map]
      refine (List.map_id _).symm.trans (List.map_congr_left fun fd hfd => ?_)
      obtain ⟨i, hi, j, hj, rfl⟩ := mem_clients.mp hfd
      obtain ⟨xs, hxs⟩ := Option.isSome_iff_exists.mp (hpresent i hi j hj)
      rw [hxs]
      rfl
    · intro xs hxs
      obtain ⟨fd, hfd, rfl⟩ := List.mem_map.mp hxs
      exact hfuel fd hfd

/-- The products of line 290 are values of an `int`. -/
theorem mul_expected_iff (hU : 1 ≤ U) {expected : ℤ} :
    ((mul intBits G S).bind fun messages => mul intBits messages ((U : ℤ) - 1)) = some expected ↔
      G * S < 2 ^ 31 ∧ G * S * (U - 1) < 2 ^ 31 ∧ ((G * S * (U - 1) : ℕ) : ℤ) = expected := by
  have hmessages : (G : ℤ) * S = (G * S : ℕ) := (Nat.cast_mul G S).symm
  have hcopies : ((G * S : ℕ) : ℤ) * ((U : ℤ) - 1) = (G * S * (U - 1) : ℕ) := by
    rw [Nat.cast_mul (G * S), Nat.cast_sub hU, Nat.cast_one]
  rw [Option.bind_eq_some_iff]
  simp only [mul, checked_eq_some_iff]
  constructor
  · rintro ⟨messages, ⟨hfits, rfl⟩, hfits', rfl⟩
    rw [hmessages] at hfits hfits'
    rw [hcopies] at hfits'
    rw [hmessages, hcopies]
    exact ⟨fits_natCast_iff.mp hfits, fits_natCast_iff.mp hfits', rfl⟩
  · rintro ⟨hlt, hlt', rfl⟩
    refine ⟨(G * S : ℕ), ⟨?_, hmessages⟩, ?_, hcopies⟩
    · rw [hmessages]
      exact fits_natCast hlt
    · rw [hcopies]
      exact fits_natCast hlt'

/-- **What the evaluation needs**: logs that can be read, and enough fuel for them. -/
theorem evaluateLogs_eq_some_iff (hU : 1 ≤ U) :
    evaluateLogs fuel temp logs G U S = some e ↔
      logs.Readable G U S ∧ logs.serverRecords.length < fuel ∧
        (∀ fd ∈ logs.clients G U, (records fd).length < fuel) ∧ logs.evaluation G U S = e := by
  constructor
  · intro h
    obtain ⟨⟨delaySum, count⟩, hclients, h⟩ := Option.bind_eq_some_iff.mp h
    obtain ⟨⟨serverDelaySum, serverCount⟩, hserver, h⟩ := Option.bind_eq_some_iff.mp h
    obtain ⟨messages, hmessages, h⟩ := Option.bind_eq_some_iff.mp h
    obtain ⟨expected, hexpected, h⟩ := Option.bind_eq_some_iff.mp h
    obtain ⟨hpresent, hfuel, hlen, hsums⟩ := readLogs_clients_iff.mp hclients
    obtain ⟨hpresent', hfuel', hlen', hsums'⟩ := readLog_server_iff.mp hserver
    obtain ⟨hlt, hlt', rfl⟩ := (mul_expected_iff hU).mp
      (Option.bind_eq_some_iff.mpr ⟨messages, hmessages, hexpected⟩)
    obtain ⟨rfl, rfl⟩ := Prod.mk.inj hsums
    obtain ⟨rfl, rfl⟩ := Prod.mk.inj hsums'
    exact ⟨⟨hpresent', hpresent, hlen', hlen, hlt, hlt'⟩, hfuel', hfuel, Option.some.inj h⟩
  · rintro ⟨hreadable, hfuel', hfuel, rfl⟩
    have hclients : readLogs fuel temp (logs.clients G U) (0, 0) = some _ :=
      readLogs_clients_iff.mpr ⟨hreadable.client_present, hfuel, hreadable.client_length, rfl⟩
    have hserver : readLog fuel logs.server temp (0, 0) = some _ :=
      readLog_server_iff.mpr ⟨hreadable.server_present, hfuel', hreadable.server_length, rfl⟩
    obtain ⟨messages, hmessages, hexpected⟩ := Option.bind_eq_some_iff.mp
      ((mul_expected_iff hU).mpr ⟨hreadable.messages, hreadable.copies, rfl⟩)
    simp only [evaluateLogs, hclients, hserver, hmessages, hexpected, Option.bind_eq_bind,
      Option.bind_some]
    rfl

/-- **The loops come to an end** over logs that can be read, and over no others. -/
theorem evaluateLogs_terminates_iff (hU : 1 ≤ U) :
    (∃ fuel₀, ∀ fuel ≥ fuel₀, evaluateLogs fuel temp logs G U S = some e) ↔
      logs.Readable G U S ∧ logs.evaluation G U S = e := by
  constructor
  · rintro ⟨fuel₀, h⟩
    obtain ⟨hreadable, -, -, heq⟩ := (evaluateLogs_eq_some_iff hU).mp (h fuel₀ le_rfl)
    exact ⟨hreadable, heq⟩
  · rintro ⟨hreadable, rfl⟩
    refine ⟨logs.serverRecords.length + (logs.clientRecords G U).length + 1, fun fuel hfuel => ?_⟩
    refine (evaluateLogs_eq_some_iff hU).mpr ⟨hreadable, by omega, fun fd hfd => ?_, rfl⟩
    have hle : (records fd).length ≤ (logs.clientRecords G U).length := by
      rw [LogFiles.clientRecords, List.flatMap_def]
      exact (List.sublist_flatten_of_mem (List.mem_map_of_mem hfd)).length_le
    omega

/-- **One missing log is enough**, whatever is in the others. -/
theorem evaluateLogs_missing (hU : 1 ≤ U) {i j : ℕ} (hi : i < G) (hj : j < U)
    (hmissing : logs.client i j = none) (fuel : ℕ) : evaluateLogs fuel temp logs G U S = none := by
  refine Option.eq_none_iff_forall_ne_some.mpr fun e he => ?_
  have hpresent := ((evaluateLogs_eq_some_iff hU).mp he).1.client_present i hi j hj
  rw [hmissing] at hpresent
  exact Bool.false_ne_true hpresent

/-! ### The averages -/

/-- Additions in `unsigned long` come to the sum, up to its limit. -/
theorem toNat_foldl (xs : List UInt64) (sum : UInt64) :
    (xs.foldl (· + ·) sum).toNat = (sum.toNat + total xs) % 2 ^ 64 := by
  induction xs generalizing sum with
  | nil => exact (Nat.mod_eq_of_lt sum.toNat_lt).symm
  | cons x xs ih =>
    have htotal : total (x :: xs) = x.toNat + total xs := rfl
    rw [List.foldl_cons, ih, UInt64.toNat_add, htotal, Nat.mod_add_mod, Nat.add_assoc]

/-- A sum is exact if it is below the limit. -/
theorem toNat_foldl_eq_iff (xs : List UInt64) :
    (xs.foldl (· + ·) 0).toNat = total xs ↔ total xs < 2 ^ 64 := by
  rw [toNat_foldl, UInt64.toNat_zero, Nat.zero_add]
  exact Nat.mod_eq_iff_lt (by decide)

theorem exact_evaluation_iff :
    (logs.evaluation G U S).Exact logs G U ↔
      total logs.serverRecords < 2 ^ 64 ∧ total (logs.clientRecords G U) < 2 ^ 64 := by
  constructor
  · intro h
    exact ⟨(toNat_foldl_eq_iff _).mp h.serverDelaySum, (toNat_foldl_eq_iff _).mp h.delaySum⟩
  · rintro ⟨hserver, hclient⟩
    exact ⟨(toNat_foldl_eq_iff _).mpr hclient, rfl, (toNat_foldl_eq_iff _).mpr hserver, rfl⟩

/-- There is something to return if both divisors are other than zero. -/
theorem isSome_reportAverages {warnings : List Printed} {serverDelaySum delaySum : UInt64}
    {serverCount count : ℤ} :
    (reportAverages warnings serverDelaySum serverCount delaySum count).result.isSome ↔
      serverCount ≠ 0 ∧ count ≠ 0 := by
  by_cases hserver : serverCount = 0
  · simp [reportAverages, average, hserver]
  · by_cases hcount : count = 0 <;> simp [reportAverages, average, hserver, hcount]

theorem isSome_evaluation_iff :
    (logs.evaluation G U S).report.result.isSome ↔
      logs.serverRecords ≠ [] ∧ logs.clientRecords G U ≠ [] := by
  rw [LogFiles.evaluation, isSome_reportAverages]
  simp only [ne_eq, Int.natCast_eq_zero, List.length_eq_zero_iff]

/-! ### Completing -/

theorem Completes.evaluable (hU : 1 ≤ U) (h : Completes temp logs G U S) :
    logs.Evaluable G U S := by
  obtain ⟨e, hends, hexact, hresult⟩ := h
  obtain ⟨hreadable, rfl⟩ := (evaluateLogs_terminates_iff hU).mp hends
  obtain ⟨hserver, hclient⟩ := exact_evaluation_iff.mp hexact
  obtain ⟨hserver', hclient'⟩ := isSome_evaluation_iff.mp hresult
  exact ⟨hreadable, hserver', hclient', hserver, hclient⟩

theorem LogFiles.Evaluable.completes (hU : 1 ≤ U) (h : logs.Evaluable G U S) :
    Completes temp logs G U S :=
  ⟨_, (evaluateLogs_terminates_iff hU).mpr ⟨h.toReadable, rfl⟩,
    exact_evaluation_iff.mpr ⟨h.server_total, h.client_total⟩,
    isSome_evaluation_iff.mpr ⟨h.server_ne_nil, h.client_ne_nil⟩⟩

/-- **The evaluation completes** for logs that can be evaluated, and for no others. -/
theorem completes_iff (hU : 1 ≤ U) : Completes temp logs G U S ↔ logs.Evaluable G U S :=
  ⟨Completes.evaluable hU, LogFiles.Evaluable.completes hU⟩

/-- Two clients, one of which has received the message of the other. -/
theorem completes_iff_oneGroup :
    Completes 0 ⟨some [5], fun _ j => if j = 0 then some [] else some [7]⟩ 1 2 1 := by
  refine (completes_iff (by decide)).mpr ⟨⟨rfl, ?_, ?_, ?_, ?_, ?_⟩, ?_, ?_, ?_, ?_⟩ <;> decide

/-- **Two tests that do not complete**: one of two clients, the second of which has left no
log, and one of a single client, whose log is empty. The first is never over, and the second
divides by zero. -/
theorem evaluateLogs_missing_or_empty :
    (∀ fuel, evaluateLogs fuel 0 ⟨some [5], fun _ j => if j = 0 then some [] else none⟩ 1 2 1 =
      none) ∧
    (evaluateLogs 2 0 ⟨some [5], fun _ _ => some []⟩ 1 1 1).map (fun e => e.report.result) =
      some none ∧
    ¬∀ temp logs G U S, 1 ≤ G → 1 ≤ U → Completes temp logs G U S := by
  refine ⟨evaluateLogs_missing (j := 1) (by decide) (by decide : 0 < 1) (by decide) rfl, by decide,
    fun h => ?_⟩
  have hall := h 0 ⟨none, fun _ _ => none⟩ 1 1 0 (by decide) (by decide)
  exact Bool.false_ne_true (hall.evaluable (by decide)).server_present

end GroupChat
