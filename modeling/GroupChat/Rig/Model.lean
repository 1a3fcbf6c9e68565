import GroupChat.Library.CInt
import GroupChat.Registry.Model

/-!
# The test rig

`performTest` of `testRig.c`: it starts a server and the clients of all groups, has the
first clients of each group send a message, kills everybody, and then reads the log files,
in which the server has left a record for each message and a client one for each message
it received. What the processes do in between is the business of the server and the
clients, so here the logs are given (`GroupChat.LogFiles`).

The loops over a log end when `read` returns `0`, which it never does on the descriptor
`-1` of a file that could not be opened. So they have fuel
(`GroupChat.readLog`), and what they come to with enough of it is
`GroupChat.readLog_eq`.
-/

namespace GroupChat

open CInt

/-! ### Processes -/

/-- The names of the clients. -/
def randomNames : List String :=
  ["Rishabh", "Vaibhav", "Shekhar", "Simran", "Sunny", "Aryan", "Anisha", "Gokul", "N.Priyanka",
    "Priya", "Nikita", "Abigail", "Archita", "Suhani", "Mitali", "Kavya", "Rakesh", "Sumit",
    "Angel", "Prince", "Ramya", "Krishna", "Deepro", "Leah", "Sadaf", "Ajay", "Ayushi", "Crowny",
    "Vidhya", "Avi", "Dilmini", "Mayur", "Ram", "Niharika", "Nishi", "Diya", "Anushri", "Dhruv",
    "Paaus", "Manoj", "Sanjana", "Rishita", "Radhika", "Tushar", "Anamika", "Vikas", "Dawn",
    "Sanjay", "Anu", "Siddharth", "Raghav", "Tanu", "Nishita", "Indhumathi", "Anurag", "Parth",
    "Katherine", "Sanchit", "Kamalika", "Pranav", "Abdul", "Rutuja", "Rohit", "Niti", "Avinash",
    "Sneha", "Arun", "Anusha", "Ankit", "Siya", "Akshay", "Raj", "Ankur", "Rahul", "John", "Neha",
    "Tanya", "Gayatri", "Nishant", "Sam", "Abhishek", "Tanvi", "Ashish", "Arya", "Shrinidhi",
    "Mahesh", "Riya", "Mary", "Arusha", "Nisha", "Prachi", "Dinesh", "Shashank", "Vaishnavi",
    "Diksha", "Arjun", "Anirudh", "Pratik", "Shaan", "Khushi", "Manu", "Debbie", "Ishika",
    "Ajeet", "Raju", "Aditya", "Vedant", "Divya", "Jatin", "Kartik", "Mahima", "Rashi", "Nikhil",
    "Harish", "Krish", "Lavanya", "Sarah", "Chandralekha", "Ajith", "Akansha", "Abhinav",
    "Sasashy", "Varun", "Manisha", "Moii Chhangte", "Swati", "Aswini", "Prashant",
    "Papuii Colney", "Rhea", "Neeraj", "Deepak", "Deepa", "Natasha", "Suresh", "Sara", "Vivek",
    "Aditi", "Vani", "Amit", "Shreya", "Yash", "Sunil", "Ananya", "Arti", "Priyanka", "Karan",
    "Lily", "Soham", "Ramanan", "Ishita", "Kalyani", "Isha", "Varsha", "Jay", "Tisha", "Shyam",
    "Abhi", "Aaditya", "Juvina", "Mayank", "Seema", "Nitin", "Shivani", "Manish", "Shivangi",
    "Akash", "Vishal", "Rohan", "Sam", "Naveen", "Neelam", "Anjana", "Ira", "Rajeev", "Aniket",
    "Aishwarya", "Anubhav", "Ria", "Sakshi", "Anjali", "Dia", "Anil", "Kumar", "Pawan", "Shail",
    "Mohit", "Prateek", "Alok", "Aastha", "Shivam", "Krithika", "Pavithra", "Girish", "Aashna",
    "Anish", "Vinay", "Atul", "Kunal", "Deep"]

/-- The names of the groups. -/
def randomGroupNames : List String :=
  ["Emerald", "Ruby", "Topaz", "Saphire", "Amethyst", "Jade", "Pearls", "Tanzanite"]

/-- A client that has been started. -/
structure ClientProcess where
  user : String
  group : String
deriving DecidableEq

/-- The first loop, lines 232 to 243: the table `connections`, with the clients in the
place of their process numbers. -/
def createClients (groupCount userCount : ℕ) : Option (List (List ClientProcess)) :=
  (List.range groupCount).mapM fun i => (List.range userCount).mapM fun j => do
    let user ← randomNames[i * userCount + j]?
    let group ← randomGroupNames[i]?
    return ⟨user, group⟩

/-- The loop of line 246: the clients that get `SIGUSR1`. -/
def signalClients (connections : List (List ClientProcess)) (simultaneousUsers : ℕ) :
    Option (List (List ClientProcess)) :=
  connections.mapM fun row => (List.range simultaneousUsers).mapM fun j => row[j]?

/-- **There are names** for eight groups and two hundred clients. -/
theorem exists_createClients_iff {G U : ℕ} (hG : 1 ≤ G) (hU : 1 ≤ U) :
    (∃ connections, createClients G U = some connections) ↔ G ≤ 8 ∧ G * U ≤ 200 := by
  have hnames : randomNames.length = 200 := by decide +kernel
  have hgroups : randomGroupNames.length = 8 := by decide
  constructor
  · rintro ⟨connections, h⟩
    -- the last client of the last group has the last names
    obtain ⟨row, -, hrow⟩ := exists_of_mapM h (List.mem_range.mpr (by omega : G - 1 < G))
    obtain ⟨client, -, hclient⟩ := exists_of_mapM hrow (List.mem_range.mpr (by omega : U - 1 < U))
    obtain ⟨user, huser, hclient⟩ := Option.bind_eq_some_iff.mp hclient
    obtain ⟨group, hgroup, -⟩ := Option.bind_eq_some_iff.mp hclient
    have huser := (List.getElem?_eq_some_iff.mp huser).1
    have hgroup := (List.getElem?_eq_some_iff.mp hgroup).1
    have hmul : (G - 1) * U + U = G * U := by
      rw [← Nat.succ_mul, Nat.succ_eq_add_one, Nat.sub_add_cancel hG]
    omega
  · rintro ⟨hG8, hmul⟩
    refine exists_mapM _ fun i hi => exists_mapM _ fun j hj => ?_
    rw [List.mem_range] at hi hj
    have hlt : i * U + j < G * U := by
      have := Nat.mul_le_mul_right U (Nat.succ_le_of_lt hi)
      rw [Nat.succ_mul] at this
      omega
    rw [List.getElem?_eq_getElem (show i * U + j < randomNames.length by omega),
      List.getElem?_eq_getElem (show i < randomGroupNames.length by omega)]
    exact ⟨_, rfl⟩

/-- The clients that are signalled are there. -/
theorem exists_signalClients {G U S : ℕ} {connections : List (List ClientProcess)}
    (h : createClients G U = some connections) (hS : S ≤ U) :
    ∃ signalled, signalClients connections S = some signalled := by
  refine exists_mapM _ fun row hrow => exists_mapM _ fun j hj => ?_
  -- every row has a client for each number
  have hlen : row.length = U := by
    obtain ⟨i, -, hturn⟩ := of_mem_mapM h hrow
    simpa using (mapM_eq_some_iff.mp hturn).length_eq.symm
  rw [List.mem_range] at hj
  exact ⟨_, List.getElem?_eq_getElem (by omega)⟩

/-! ### Logs -/

/-- A descriptor for reading a log: the records behind its position, or `-1`. -/
abbrev LogFile := Option (List UInt64)

/-- The logs of a test. -/
structure LogFiles where
  server : LogFile
  /-- The log of the client in this group, with this number. -/
  client : ℕ → ℕ → LogFile

/-- `read(fd, &temp, sizeof(temp))`: what it returns, and what is then in `temp`. -/
def readRecord (fd : LogFile) (temp : UInt64) : ℤ × UInt64 × LogFile :=
  match fd with
  | none => (-1, temp, none)
  | some [] => (0, temp, some [])
  | some (x :: xs) => (8, x, some xs)

/-- The loops of lines 272 and 281, with a sum and a count. -/
def readLog : ℕ → LogFile → UInt64 → UInt64 × ℤ → Option (UInt64 × ℤ)
  | 0, _, _, _ => none
  | fuel + 1, fd, temp, (sum, count) =>
    let (n, temp, fd) := readRecord fd temp
    if n = 0 then some (sum, count)
    else do
      let count ← add intBits count 1
      readLog fuel fd temp (sum + temp, count)

/-- The logs of the clients, one after the other. -/
def readLogs (fuel : ℕ) (temp : UInt64) : List LogFile → UInt64 × ℤ → Option (UInt64 × ℤ)
  | [], acc => some acc
  | fd :: fds, acc => (readLog fuel fd temp acc).bind (readLogs fuel temp fds)

/-- **A log is read to its end**, with enough fuel. -/
theorem readLog_eq {fuel : ℕ} {xs : List UInt64} {temp sum : UInt64} {count : ℤ}
    (hfuel : xs.length < fuel) (h0 : 0 ≤ count) (hfits : Fits intBits (count + xs.length)) :
    readLog fuel (some xs) temp (sum, count) =
      some (xs.foldl (· + ·) sum, count + xs.length) := by
  induction xs generalizing fuel temp sum count with
  | nil =>
    obtain ⟨fuel, rfl⟩ := Nat.exists_eq_succ_of_ne_zero (Nat.ne_of_gt hfuel)
    simp [readLog, readRecord]
  | cons x xs ih =>
    obtain ⟨fuel, rfl⟩ := Nat.exists_eq_succ_of_ne_zero (Nat.ne_of_gt (Nat.zero_lt_of_lt hfuel))
    rw [List.length_cons] at hfuel hfits
    push_cast at hfits
    have hone : Fits intBits (count + 1) :=
      Fits.of_between (by decide : Fits intBits 0) hfits (by omega) (by omega)
    have hlen : count + 1 + (xs.length : ℤ) = count + (xs.length + 1) := by omega
    -- one turn takes the first record, and the others are read as before
    calc readLog (fuel + 1) (some (x :: xs)) temp (sum, count)
        = (add intBits count 1).bind fun count => readLog fuel (some xs) x (sum + x, count) := rfl
      _ = readLog fuel (some xs) x (sum + x, count + 1) := by
        rw [add_eq_some hone, Option.bind_some]
      _ = some (xs.foldl (· + ·) (sum + x), count + 1 + xs.length) :=
        ih (by omega) (by omega) (hlen ▸ hfits)
      _ = some ((x :: xs).foldl (· + ·) sum, count + (x :: xs).length) := by
        rw [List.foldl_cons, hlen, List.length_cons, Nat.cast_succ]

/-- A file that could not be opened is read forever. -/
theorem readLog_missing (fuel : ℕ) (temp : UInt64) (acc : UInt64 × ℤ) :
    readLog fuel none temp acc = none := by
  induction fuel generalizing acc with
  | zero => rfl
  | succ fuel ih =>
    obtain ⟨sum, count⟩ := acc
    simp [readLog, readRecord, ih]

/-- Logs are read one after the other. -/
theorem readLogs_eq {fuel : ℕ} {xss : List (List UInt64)} {temp sum : UInt64} {count : ℤ}
    (hfuel : ∀ xs ∈ xss, xs.length < fuel) (h0 : 0 ≤ count)
    (hfits : Fits intBits (count + xss.flatten.length)) :
    readLogs fuel temp (xss.map some) (sum, count) =
      some (xss.flatten.foldl (· + ·) sum, count + xss.flatten.length) := by
  induction xss generalizing sum count with
  | nil => simp [readLogs]
  | cons xs xss ih =>
    rw [List.flatten_cons, List.length_append] at hfits
    push_cast at hfits
    have hfirst : Fits intBits (count + xs.length) :=
      Fits.of_between (by decide : Fits intBits 0) hfits (by omega) (by omega)
    rw [List.map_cons, readLogs, readLog_eq (hfuel xs List.mem_cons_self) h0 hfirst,
      Option.bind_some, ih (fun ys hys => hfuel ys (List.mem_cons_of_mem _ hys)) (by omega)
        (by rwa [add_assoc]), List.flatten_cons, List.foldl_append, List.length_append,
      Nat.cast_add, add_assoc]

/-- **What it takes to read a log**: the file is there, the fuel is enough, and the records
can be counted. -/
theorem readLog_eq_some_iff {fuel : ℕ} {fd : LogFile} {temp sum : UInt64} {count : ℤ}
    (h0 : 0 ≤ count) (hfits : Fits intBits count) {result : UInt64 × ℤ} :
    readLog fuel fd temp (sum, count) = some result ↔
      ∃ xs, fd = some xs ∧ xs.length < fuel ∧ Fits intBits (count + xs.length) ∧
        (xs.foldl (· + ·) sum, count + (xs.length : ℤ)) = result := by
  constructor
  · intro h
    induction fuel generalizing fd temp sum count with
    | zero => cases h
    | succ fuel ih =>
      match fd with
      | none =>
        rw [readLog_missing] at h
        cases h
      | some [] =>
        have hresult : (sum, count) = result := Option.some.inj h
        exact ⟨[], rfl, Nat.succ_pos fuel, by simpa using hfits, by simpa using hresult⟩
      | some (x :: xs) =>
        obtain ⟨count', hcount, hrest⟩ := Option.bind_eq_some_iff.mp h
        obtain ⟨hone, rfl⟩ := checked_eq_some_iff.mp hcount
        obtain ⟨ys, heq, hfuel, hlast, hresult⟩ := ih (by omega) hone hrest
        obtain rfl := Option.some.inj heq
        have hlen : count + 1 + (xs.length : ℤ) = count + (x :: xs).length := by
          rw [List.length_cons, Nat.cast_succ]
          omega
        exact ⟨x :: xs, rfl, Nat.succ_lt_succ hfuel, hlen ▸ hlast, hlen ▸ hresult⟩
  · rintro ⟨xs, rfl, hfuel, hlast, rfl⟩
    exact readLog_eq hfuel h0 hlast

/-- What it takes to read all logs. -/
theorem readLogs_eq_some_iff {fuel : ℕ} {fds : List LogFile} {temp sum : UInt64} {count : ℤ}
    (h0 : 0 ≤ count) (hfits : Fits intBits count) {result : UInt64 × ℤ} :
    readLogs fuel temp fds (sum, count) = some result ↔
      ∃ xss : List (List UInt64), fds = xss.map some ∧ (∀ xs ∈ xss, xs.length < fuel) ∧
        Fits intBits (count + xss.flatten.length) ∧
        (xss.flatten.foldl (· + ·) sum, count + (xss.flatten.length : ℤ)) = result := by
  constructor
  · intro h
    induction fds generalizing sum count with
    | nil =>
      have hresult : (sum, count) = result := Option.some.inj h
      exact ⟨[], rfl, by simp, by simpa using hfits, by simpa using hresult⟩
    | cons fd fds ih =>
      obtain ⟨acc, hfirst, hrest⟩ := Option.bind_eq_some_iff.mp h
      obtain ⟨xs, rfl, hfuel, hmiddle, rfl⟩ := (readLog_eq_some_iff h0 hfits).mp hfirst
      obtain ⟨xss, rfl, hfuels, hlast, hresult⟩ := ih (by omega) hmiddle hrest
      have hlen : count + xs.length + (xss.flatten.length : ℤ) =
          count + (xs :: xss).flatten.length := by
        rw [List.flatten_cons, List.length_append, Nat.cast_add, add_assoc]
      refine ⟨xs :: xss, rfl, ?_, hlen ▸ hlast, ?_⟩
      · intro ys hys
        rcases List.mem_cons.mp hys with rfl | hys
        · exact hfuel
        · exact hfuels ys hys
      · rw [← hlen, List.flatten_cons, List.foldl_append]
        exact hresult
  · rintro ⟨xss, rfl, hfuel, hlast, rfl⟩
    exact readLogs_eq hfuel h0 hlast

/-! ### The evaluation -/

/-- A call of `printf`. -/
inductive Printed where
  | notDelivered (expected received : ℤ)
  | dropped (expected received : ℤ)
  | averageServerDelay (delay : UInt64)
  | averageClientDelay (delay : UInt64)
deriving DecidableEq

/-- What is printed. -/
def Printed.text : Printed → String
  | notDelivered expected received => "Messages are not delivered.\nExpected: " ++
      toString expected ++ "\nReceived: " ++ toString received ++ "\n"
  | dropped expected received => "Messages are getting dropped.\nExpected: " ++
      toString expected ++ "\nReceived: " ++ toString received ++ "\n"
  | averageServerDelay delay => "Average Server Delay: " ++ toString delay ++ "\n"
  | averageClientDelay delay => "Average Client Delay: " ++ toString delay ++ "\n"

/-- The two warnings. -/
def Printed.isWarning : Printed → Bool
  | notDelivered _ _ | dropped _ _ => true
  | _ => false

@[simp] theorem Printed.isWarning_notDelivered (expected received : ℤ) :
    (notDelivered expected received).isWarning = true := rfl

@[simp] theorem Printed.isWarning_dropped (expected received : ℤ) :
    (dropped expected received).isWarning = true := rfl

@[simp] theorem Printed.isWarning_averageServerDelay (delay : UInt64) :
    (averageServerDelay delay).isWarning = false := rfl

@[simp] theorem Printed.isWarning_averageClientDelay (delay : UInt64) :
    (averageClientDelay delay).isWarning = false := rfl

/-- What a test comes to: what it has printed, and what it returns, which is nothing
where it divides by zero. -/
structure Report where
  printed : List Printed
  result : Option UInt64
deriving DecidableEq

/-- Lines 286 to 294: the counts of the logs, compared with those expected. -/
def lossCheck (simultaneousUsers serverCount expected count : ℤ) : List Printed :=
  (if serverCount ≠ simultaneousUsers then [.notDelivered simultaneousUsers serverCount] else []) ++
    (if count ≠ expected then [.dropped expected count] else [])

/-- `sum / count`, in `unsigned long`. -/
def average (sum : UInt64) (count : ℤ) : Option UInt64 :=
  if count = 0 then none else some (sum / UInt64.ofNat count.toNat)

/-- Lines 295 to 298, behind the warnings. -/
def reportAverages (warnings : List Printed) (serverDelaySum : UInt64) (serverCount : ℤ)
    (delaySum : UInt64) (count : ℤ) : Report :=
  match average serverDelaySum serverCount with
  | none => ⟨warnings, none⟩
  | some serverDelay =>
    match average delaySum count with
    | none => ⟨warnings ++ [.averageServerDelay serverDelay], none⟩
    | some delay =>
      ⟨warnings ++ [.averageServerDelay serverDelay, .averageClientDelay delay], some delay⟩

/-- The descriptors of the clients' logs, in the order in which they are read. -/
def LogFiles.clients (logs : LogFiles) (groupCount userCount : ℕ) : List LogFile :=
  (List.range groupCount).flatMap fun i => (List.range userCount).map fun j => logs.client i j

/-- A test that has printed a warning. -/
def Report.Warns (r : Report) : Prop := ∃ p ∈ r.printed, p.isWarning

instance (r : Report) : Decidable r.Warns := inferInstanceAs (Decidable (∃ p ∈ r.printed, _))

/-- **A test warns** exactly if one of the two counts is not the expected one. -/
theorem warns_reportAverages (simultaneousUsers serverCount expected count : ℤ)
    (serverDelaySum delaySum : UInt64) :
    (reportAverages (lossCheck simultaneousUsers serverCount expected count)
      serverDelaySum serverCount delaySum count).Warns ↔
        serverCount ≠ simultaneousUsers ∨ count ≠ expected := by
  -- the averages behind the warnings are none
  have hwarns : ∀ ws, (reportAverages ws serverDelaySum serverCount delaySum count).Warns ↔
      ∃ p ∈ ws, p.isWarning := by
    intro ws
    rw [reportAverages]
    cases average serverDelaySum serverCount with
    | none => rfl
    | some a => cases average delaySum count <;> simp [Report.Warns, or_and_right, exists_or]
  rw [hwarns, lossCheck]
  split_ifs <;> simp_all

/-- `performTest`, with the logs that the processes leave and what the local `temp`
happens to hold before something is read into it. -/
def performTest (fuel : ℕ) (temp : UInt64) (logs : LogFiles)
    (groupCount userCount simultaneousUsers : ℕ) : Option Report := do
  let connections ← createClients groupCount userCount
  let _ ← signalClients connections simultaneousUsers
  let (delaySum, count) ← readLogs fuel temp (logs.clients groupCount userCount) (0, 0)
  let (serverDelaySum, serverCount) ← readLog fuel logs.server temp (0, 0)
  let messages ← mul intBits groupCount simultaneousUsers
  let expected ← mul intBits messages ((userCount : ℤ) - 1)
  return reportAverages (lossCheck simultaneousUsers serverCount expected count)
    serverDelaySum serverCount delaySum count

end GroupChat
