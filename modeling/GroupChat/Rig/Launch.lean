import GroupChat.Chat.Session
import GroupChat.Rig.Files

/-!
# What the rig starts

`createServer` and `createClient` replace a new process by the server or by a client, with
a command line that the program takes apart again, in `main` of `server.c` (lines 58 to
79) and of `client.c` (lines 35 to 63). Both have to mean the same by it: that this is a
test, who the client is, and where its records go (`GroupChat.rig_starts_tests`).

Of the command lines only what `main` makes of them is left here; the address and the port
are for `connect` and `bind`. A file may be impossible to open (`opens`), and then the
process ends, as it does with too few arguments.
-/

namespace GroupChat

open CInt

/-- The bytes of an argument. -/
def argumentBytes (s : String) : List UInt8 := s.toUTF8.data.toList

theorem argumentBytes_inj {s t : String} : argumentBytes s = argumentBytes t ↔ s = t := by
  refine ⟨fun h => String.toByteArray_inj.mp (ByteArray.ext (Array.ext' h)), ?_⟩
  rintro rfl
  rfl

/-! ### The command lines -/

/-- `main` of `client.c`, lines 35 to 63: the arguments, and the log in `TEST` mode. -/
def clientCommandLine (opens : String → Bool) : List String → Option (Arguments × Option String)
  | _ :: _ :: _ :: name :: groupName :: rest =>
    match rest with
    | [] => some (⟨argumentBytes name, argumentBytes groupName, .prod⟩, none)
    | mode :: rest =>
      if mode = "TEST" then
        match rest with
        -- `argv[6]` is `NULL`, which `open` refuses
        | [] => none
        | logfile :: _ =>
          if opens logfile then
            some (⟨argumentBytes name, argumentBytes groupName, .test⟩, some logfile)
          else none
      else if mode = "DEV" then
        some (⟨argumentBytes name, argumentBytes groupName, .dev⟩, none)
      else some (⟨argumentBytes name, argumentBytes groupName, .prod⟩, none)
  | _ => none

/-- `main` of `server.c`, lines 58 to 79: the port, the mode, and the log in `TEST` mode. -/
def serverCommandLine (opens : String → Bool) : List String → Option (String × Mode × Option String)
  | _ :: port :: rest =>
    match rest with
    | [] => some (port, .prod, none)
    | mode :: rest =>
      if mode = "TEST" then
        match rest with
        | [] => none
        | logfile :: _ => if opens logfile then some (port, .test, some logfile) else none
      else if mode = "DEV" then some (port, .dev, none)
      else some (port, .prod, none)
  | _ => none

/-- The command line of `createServer`. -/
def createServer (serverLocation serverPort logfile : String) : List String :=
  [serverLocation, serverPort, "TEST", logfile]

/-- The command line of `createClient`. -/
def createClient (clientLocation serverPort user group logfile : String) : List String :=
  [clientLocation, "127.0.0.1", serverPort, user, group, "TEST", logfile]

/-! ### The clients of a test -/

/-- What a client makes of its command line. -/
def ClientProcess.arguments (client : ClientProcess) : Arguments :=
  ⟨argumentBytes client.user, argumentBytes client.group, .test⟩

/-- The names are strings without a NUL that fit their fields. -/
theorem short_names : ∀ name ∈ randomNames ++ randomGroupNames,
    (0 : UInt8) ∉ argumentBytes name ∧ (argumentBytes name).length < nameSize := by
  decide +kernel

/-- The client in a place of the table `connections`. -/
def clientAt (connections : List (List ClientProcess)) (i j : ℕ) : Option ClientProcess :=
  connections[i]?.bind fun row => row[j]?

/-- The place of a client says which names it has. -/
theorem exists_clientAt {G U : ℕ} {connections : List (List ClientProcess)}
    (h : createClients G U = some connections) {i j : ℕ} (hi : i < G) (hj : j < U) :
    ∃ client, clientAt connections i j = some client ∧
      randomNames[i * U + j]? = some client.user ∧ randomGroupNames[i]? = some client.group := by
  have hrow := getElem?_of_mapM h i
  rw [List.getElem?_range hi, Option.bind_some] at hrow
  obtain ⟨row, hmem, hrow'⟩ := exists_of_mapM h (List.mem_range.mpr hi)
  have hclient := getElem?_of_mapM hrow' j
  rw [List.getElem?_range hj, Option.bind_some] at hclient
  obtain ⟨client, -, hturn⟩ := exists_of_mapM hrow' (List.mem_range.mpr hj)
  refine ⟨client, ?_, ?_⟩
  · rw [clientAt, hrow, hrow', Option.bind_some, hclient, hturn]
  · obtain ⟨user, huser, hturn⟩ := Option.bind_eq_some_iff.mp hturn
    obtain ⟨group, hgroup, hturn⟩ := Option.bind_eq_some_iff.mp hturn
    obtain rfl := Option.some.inj hturn
    exact ⟨huser, hgroup⟩

/-- Clients have the same group name if they are in one row of the table. -/
theorem groupName_eq_iff {i i' : ℕ} {client client' : ClientProcess}
    (h : randomGroupNames[i]? = some client.group)
    (h' : randomGroupNames[i']? = some client'.group) :
    client.arguments.groupName = client'.arguments.groupName ↔ i = i' := by
  have hnodup : randomGroupNames.Nodup := by decide
  simp only [ClientProcess.arguments, argumentBytes_inj]
  refine ⟨fun heq => ?_, ?_⟩
  · exact (List.getElem?_inj (List.getElem?_eq_some_iff.mp h).1 hnodup).mp (by rw [h, h', heq])
  · rintro rfl
    exact Option.some.inj (h.symm.trans h')

/-- The arguments of a client of a test are short. -/
theorem short_arguments {i : ℕ} {client : ClientProcess}
    (huser : client.user ∈ randomNames) (h : randomGroupNames[i]? = some client.group) :
    client.arguments.Short := by
  obtain ⟨hname, hlen⟩ := short_names client.user (List.mem_append_left _ huser)
  obtain ⟨hgroup, hlen'⟩ :=
    short_names client.group (List.mem_append_right _ (List.mem_of_getElem? h))
  exact ⟨hname, hgroup, hlen, hlen'⟩

/-- **The rig starts tests.** The server and every client take from their command lines that
this is a test, and their own log; names fit the fields of a join request, clients have a
group name in common if and only if the rig has them in one group, and no two of the
processes have the same log. -/
theorem rig_starts_tests {G U : ℕ} {connections : List (List ClientProcess)}
    (h : createClients G U = some connections) {opens : String → Bool}
    (hopens : ∀ file, opens file = true) (serverLocation clientLocation serverPort test : String) :
    serverCommandLine opens (createServer serverLocation serverPort (serverLogName test)) =
        some (serverPort, .test, some (serverLogName test)) ∧
      ∀ i < G, ∀ j < U, ∃ client, clientAt connections i j = some client ∧
        client.arguments.Short ∧
        clientCommandLine opens
            (createClient clientLocation serverPort client.user client.group (logName test i j)) =
          some (client.arguments, some (logName test i j)) ∧
        logName test i j ≠ serverLogName test ∧
        ∀ i' < G, ∀ j' < U, ∀ client', clientAt connections i' j' = some client' →
          (client.arguments.groupName = client'.arguments.groupName ↔ i = i') ∧
            (logName test i j = logName test i' j' ↔ i = i' ∧ j = j') := by
  refine ⟨by simp [serverCommandLine, createServer, hopens], fun i hi j hj => ?_⟩
  obtain ⟨client, hclient, huser, hgroup⟩ := exists_clientAt h hi hj
  refine ⟨client, hclient, short_arguments (List.mem_of_getElem? huser) hgroup, ?_,
    logName_ne_serverLogName test i j, fun i' hi' j' hj' client' hclient' => ?_⟩
  · simp [clientCommandLine, createClient, hopens, ClientProcess.arguments]
  · obtain ⟨client'', hclient'', -, hgroup'⟩ := exists_clientAt h hi' hj'
    obtain rfl := Option.some.inj (hclient'.symm.trans hclient'')
    exact ⟨groupName_eq_iff hgroup hgroup', logName_inj⟩

/-- Two groups of two clients. -/
theorem rig_starts_tests_twoGroups :
    ∃ connections, createClients 2 2 = some connections ∧
      ∃ client, clientAt connections 1 0 = some client ∧ client.arguments.Short ∧
        clientCommandLine (fun _ => true) (createClient "client" "8000" client.user client.group
          (logName "Test" 1 0)) = some (client.arguments, some (logName "Test" 1 0)) := by
  obtain ⟨connections, h⟩ := (exists_createClients_iff (G := 2) (U := 2) (by omega) (by omega)).mpr
    (by omega)
  have hopens : ∀ file : String, (fun _ => true) file = true := fun _ => rfl
  obtain ⟨client, hclient, hshort, hline, -⟩ :=
    (rig_starts_tests h hopens "server" "client" "8000" "Test").2 1 (by omega) 0 (by omega)
  exact ⟨connections, h, client, hclient, hshort, hline⟩

end GroupChat
