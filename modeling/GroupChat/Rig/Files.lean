import GroupChat.Library.CFormat
import GroupChat.Rig.Evaluation
import Mathlib.Logic.Function.Basic

/-!
# The names of the log files

`testRig.c` opens the logs by name. The macros `LOG` and `LOG_SERVER` make the names from
the name of the test, and `main` makes that from the three numbers of the command line.
The names go into arrays of a hundred bytes, where they fit (`GroupChat.size_logName_lt`),
and no two logs have the same one (`GroupChat.logName_inj`). So nothing that is in one log
says anything about another: `GroupChat.LogFiles` can be any files whatever
(`GroupChat.exists_directory`), and any one of them can be the missing one that keeps the
evaluation from ending (`GroupChat.exists_directory_missing`).
-/

namespace GroupChat

open CFormat

/-! ### Names -/

/-- The name of the test, as `main` makes it. -/
def testName (groupCount clientCount parallelCount : ℕ) : String :=
  "Test_" ++ decimal groupCount ++ "_" ++ decimal clientCount ++ "_" ++ decimal parallelCount

/-- `LOG`. -/
def logName (testName : String) (i j : ℕ) : String :=
  "log/" ++ testName ++ "_group" ++ decimal (i + 1) ++ "_user" ++ padded 3 (j + 1) ++ ".log"

/-- `LOG_SERVER`. -/
def serverLogName (testName : String) : String := "log/" ++ testName ++ ".log"

/-- The size of the arrays `testName`, `logfile` and `serverLogFile`. -/
abbrev fileNameSize : ℕ := 100

example : logName (testName 1 10 2) 0 6 = "log/Test_1_10_2_group1_user007.log" := by decide +kernel

/-- **The name of the test fits**, and leaves room for what the macros add. -/
theorem size_testName_le {G U S : ℕ} (hG : G < 2 ^ 31) (hU : U < 2 ^ 31) (hS : S < 2 ^ 31) :
    (testName G U S).utf8ByteSize ≤ 37 := by
  have hdecimal : ∀ n < 2 ^ 31, (decimal n).utf8ByteSize ≤ 10 := fun n hn =>
    utf8ByteSize_decimal_le (by omega) (by omega)
  have hprefix : "Test_".utf8ByteSize = 5 := by decide
  have hunderscore : "_".utf8ByteSize = 1 := by decide
  simp only [testName, String.utf8ByteSize_append, hprefix, hunderscore]
  have := hdecimal G hG
  have := hdecimal U hU
  have := hdecimal S hS
  omega

/-- **The names of the logs fit**. -/
theorem size_logName_lt {G U S i j : ℕ} (hG : G < 2 ^ 31) (hU : U < 2 ^ 31) (hS : S < 2 ^ 31)
    (hi : i < G) (hj : j < U) :
    (logName (testName G U S) i j).utf8ByteSize < fileNameSize ∧
      (serverLogName (testName G U S)).utf8ByteSize < fileNameSize := by
  have htest := size_testName_le hG hU hS
  have hgroup : (decimal (i + 1)).utf8ByteSize ≤ 10 :=
    utf8ByteSize_decimal_le (by omega) (by omega)
  have huser : (padded 3 (j + 1)).utf8ByteSize ≤ 3 + 10 :=
    utf8ByteSize_padded_le (by omega) (by omega)
  have hsizes : "log/".utf8ByteSize = 4 ∧ "_group".utf8ByteSize = 6 ∧ "_user".utf8ByteSize = 5 ∧
      ".log".utf8ByteSize = 4 := by decide
  obtain ⟨hdir, hgroup', huser', hlog⟩ := hsizes
  simp only [logName, serverLogName, fileNameSize, String.utf8ByteSize_append, hdir, hgroup',
    huser', hlog]
  omega

/-- **No two clients have the same log.** -/
theorem logName_inj {test : String} {i j i' j' : ℕ} :
    logName test i j = logName test i' j' ↔ i = i' ∧ j = j' := by
  constructor
  · intro h
    have hchars := congrArg String.toList h
    simp only [logName, String.toList_append, List.append_assoc] at hchars
    have hgroup := List.append_cancel_left (List.append_cancel_left
      (List.append_cancel_left hchars))
    -- behind the number of the group comes an underscore, and behind that of the user the end
    obtain ⟨hi, hrest⟩ := decimal_append_inj (c := '_') (by decide) hgroup
    have huser : (padded 3 (j + 1)).toList = (padded 3 (j' + 1)).toList :=
      List.append_cancel_right (List.append_cancel_left hrest)
    have hj := padded_injective 3 (String.toList_injective huser)
    exact ⟨by omega, by omega⟩
  · rintro ⟨rfl, rfl⟩
    rfl

/-- The server's log is none of the clients' ones. -/
theorem logName_ne_serverLogName (test : String) (i j : ℕ) :
    logName test i j ≠ serverLogName test := by
  intro h
  have hlen := congrArg String.length h
  simp only [logName, serverLogName, String.length_append] at hlen
  have : "_group".length = 6 := by decide
  omega

/-! ### Opening -/

/-- Opening a log for reading, by its name. -/
abbrev Directory := String → LogFile

/-- The logs that `performTest` opens. -/
def Directory.logs (files : Directory) (testName : String) : LogFiles where
  server := files (serverLogName testName)
  client i j := files (logName testName i j)

/-- **Any logs are the logs of some test**: one can be missing or empty whatever there is in
the others. -/
theorem exists_directory (test : String) (logs : LogFiles) :
    ∃ files : Directory, files.logs test = logs := by
  have hinj : Function.Injective fun p : ℕ × ℕ => logName test p.1 p.2 := by
    rintro ⟨i, j⟩ ⟨i', j'⟩ h
    exact Prod.ext_iff.mpr (logName_inj.mp h)
  refine ⟨Function.extend (fun p : ℕ × ℕ => logName test p.1 p.2)
    (fun p => logs.client p.1 p.2) fun _ => logs.server, ?_⟩
  have hserver : ¬∃ p : ℕ × ℕ, logName test p.1 p.2 = serverLogName test := by
    rintro ⟨⟨i, j⟩, h⟩
    exact logName_ne_serverLogName test i j h
  have hclient : ∀ i j, Function.extend (fun p : ℕ × ℕ => logName test p.1 p.2)
      (fun p => logs.client p.1 p.2) (fun _ => logs.server) (logName test i j) =
        logs.client i j := fun i j => hinj.extend_apply _ _ (i, j)
  simp only [Directory.logs, Function.extend_apply' _ _ _ hserver, hclient]

/-- **Any log can be the one that is missing**, with the others as they are, and then the
evaluation never ends. -/
theorem exists_directory_missing (test : String) (logs : LogFiles) {G U S i j : ℕ} (hi : i < G)
    (hj : j < U) :
    ∃ files : Directory, (files.logs test).server = logs.server ∧
      (∀ i' j', (i', j') ≠ (i, j) → (files.logs test).client i' j' = logs.client i' j') ∧
      ∀ fuel temp, evaluateLogs fuel temp (files.logs test) G U S = none := by
  obtain ⟨files, hfiles⟩ := exists_directory test
    ⟨logs.server, fun i' j' => if (i', j') = (i, j) then none else logs.client i' j'⟩
  have hclient : ∀ i' j', (files.logs test).client i' j' =
      if (i', j') = (i, j) then none else logs.client i' j' := by
    intro i' j'
    rw [hfiles]
  refine ⟨files, ?_, fun i' j' hne => ?_, fun fuel temp => ?_⟩
  · rw [hfiles]
  · rw [hclient, if_neg hne]
  · exact evaluateLogs_missing (by omega) hi hj ((hclient i j).trans (if_pos rfl)) fuel

end GroupChat
