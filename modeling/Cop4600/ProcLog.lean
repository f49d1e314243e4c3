import Cop4600.Printing
import Cop4600.Reactions

/-!
# The process log

The system calls that `kernel/proc_log.c` adds to the kernel, and the functions of
`process_log.h` by which any process calls them. The kernel keeps a level, and puts the
messages of at most this level into its log. Whoever calls and in whatever order, it
works as a logger does that has a level among eight (`proc_log_is_logger`): nothing but
what root has set changes the level, and no byte of a line was left uninitialised.
-/

namespace Cop4600

/-! ## The kernel -/

/-- What the kernel knows of `current`: its `euid`, its name and its `pid`. -/
structure Task : Type where
  /-- the user on whose behalf it runs -/
  euid : UInt32
  /-- its name -/
  comm : Bytes
  /-- its number -/
  pid : Int32

/-- `proc_log_level`, and the lines that `printk` was given. -/
structure ProcLog : Type where
  level : Int32
  lines : List Bytes
  deriving DecidableEq, Repr

/-- `KERN_EMERG` to `KERN_DEBUG` are an SOH and a digit. -/
def kern (digit : String) : Bytes := 1 :: text digit

/-- `level_prefixes`. -/
def levelPrefixes : List Bytes :=
  [kern "0" ++ text "PROC_OVERRIDE", kern "1" ++ text "PROC_ALERT",
    kern "2" ++ text "PROC_CRITICAL", kern "3" ++ text "PROC_ERROR",
    kern "4" ++ text "PROC_WARNING", kern "5" ++ text "PROC_NOTICE",
    kern "6" ++ text "PROC_INFO", kern "7" ++ text "PROC_DEBUG"]

/-- `"%s [%s, %lld]: %.128s\n"`, with the message as it is printed. -/
def logLine (levelPrefix comm : Bytes) (pid : Int) (message : Bytes) : Bytes :=
  levelPrefix ++ text " [" ++ comm ++ text ", " ++ formatInt pid ++ text "]: " ++ message ++
    text "\n"

/-- `buf` once the message has been copied. `message` are the bytes that can be read from
the user's pointer on; behind them `__copy_from_user` stops, and returns how many are
missing. -/
def copiedBuf (message : Bytes) : List (Option UInt8) :=
  let copied := message.take 128
  let res := 128 - copied.length
  let buf := copied.map some ++ List.replicate res none
  if res ≠ 0 then buf.set (128 - res) (some 0) else buf

namespace ProcLog

/-- The system call `get_proc_log_level`. -/
def getProcLogLevel (k : ProcLog) : ProcLog × Int64 := (k, k.level.toInt64)

/-- The system call `set_proc_log_level`: only root may, and only to one of the eight levels. -/
def setProcLogLevel (k : ProcLog) (current : Task) (newLevel : Int32) : ProcLog × Int64 :=
  if newLevel < 0 ∨ newLevel > 7 ∨ current.euid ≠ 0 then (k, -1)
  else ({ k with level := newLevel }, newLevel.toInt64)

/-- `none` is a byte printed that has not been written. -/
def procLogMessage (k : ProcLog) (current : Task) (message : Bytes) (level : Int32) :
    Option (ProcLog × Int64) :=
  if level < 0 ∨ level > 7 then some (k, -1)
  else if level > k.level then some (k, level.toInt64)
  else
    levelPrefixes[level.toNatClampNeg]?.bind fun levelPrefix =>
      (formatStr 128 (copiedBuf message)).map fun printed =>
        ({ k with lines := k.lines ++
          [logLine levelPrefix current.comm current.pid.toInt printed] }, level.toInt64)

end ProcLog

/-! ## The library -/

/-- `syscall`: an error is `-1`, and its number goes to `errno`. -/
def syscallResult (ret : Int64) : Int64 := if -4096 < ret ∧ ret < 0 then -1 else ret

/-- The functions of `process_log.h`. A message is given by what can be read of it. -/
inductive LogCall : Type where
  | getProcLogLevel
  | setProcLogLevel (newLevel : Int32)
  | procLogMessage (level : Int32) (message : Bytes)

/-- A call by a process. Arguments and results are `long` on the way. -/
def ProcLog.step (k : ProcLog) : Task × LogCall → Option (ProcLog × Int32)
  | (_, .getProcLogLevel) =>
    let (k', ret) := k.getProcLogLevel
    some (k', (syscallResult ret).toInt32)
  | (current, .setProcLogLevel newLevel) =>
    let (k', ret) := k.setProcLogLevel current newLevel.toInt64.toInt32
    some (k', (syscallResult ret).toInt32)
  | (current, .procLogMessage level message) =>
    (k.procLogMessage current message level.toInt64.toInt32).map fun (k', ret) =>
      (k', (syscallResult ret).toInt32)

/-- `static int proc_log_level = 0`, and nothing logged. -/
def ProcLog.boot : ProcLog := ⟨0, []⟩

/-! ## A logger -/

/-- A message that was logged. -/
structure Entry : Type where
  /-- how grave it is -/
  severity : Fin 8
  /-- the name of the process -/
  comm : Bytes
  /-- its number -/
  pid : Int
  /-- what it has said -/
  message : Bytes

/-- A logger: its level, and the entries so far. -/
structure Logger : Type where
  level : Fin 8
  entries : List Entry

/-- One of the eight levels. -/
def severityOf (level : Int32) : Option (Fin 8) :=
  if 0 ≤ level ∧ level ≤ 7 then some (Fin.ofNat 8 level.toNatClampNeg) else none

/-- What it does with a call, and what it answers. -/
def Logger.answer (l : Logger) : Task × LogCall → Logger × Int32
  | (_, .getProcLogLevel) => (l, Int32.ofNat l.level)
  | (current, .setProcLogLevel newLevel) =>
    match severityOf newLevel with
    | some level => if current.euid = 0 then ({ l with level }, newLevel) else (l, -1)
    | none => (l, -1)
  | (current, .procLogMessage level message) =>
    match severityOf level with
    | some severity =>
      if severity ≤ l.level then
        ({ l with entries := l.entries ++
          [⟨severity, current.comm, current.pid.toInt, cstr (message.take 128)⟩] }, level)
      else (l, level)
    | none => (l, -1)

/-- A logger's entry as a line of the kernel's log. -/
def Entry.line (e : Entry) : Bytes :=
  logLine (levelPrefixes.getD e.severity []) e.comm e.pid e.message

/-- The kernel's log is this logger. -/
structure ProcLog.Logs (k : ProcLog) (l : Logger) : Prop where
  level_eq : k.level = Int32.ofNat l.level
  lines_eq : k.lines = l.entries.map Entry.line

/-! ## Levels -/

/-- A number that names a level is one from 0 to 7. -/
theorem severityOf_eq_some {level : Int32} {severity : Fin 8}
    (h : severityOf level = some severity) : level = Int32.ofNat severity := by
  rw [severityOf] at h
  split at h
  · next hlevel =>
    obtain rfl := Option.some.inj h
    have hhigh : level.toInt ≤ (7 : Int32).toInt := Int32.le_iff_toInt_le.mp hlevel.2
    have hnat : level.toNatClampNeg < 8 := by
      rw [← Int32.toNat_toInt, Int.toNat_lt' (by decide)]
      exact Int.lt_add_one_of_le hhigh
    rw [Fin.val_ofNat, Nat.mod_eq_of_lt hnat, Int32.ofNat_toNatClampNeg level hlevel.1]
  · cases h

/-- A number that names no level is outside of these. -/
theorem severityOf_eq_none {level : Int32} (h : severityOf level = none) :
    level < 0 ∨ level > 7 := by
  rw [severityOf] at h
  split at h
  · cases h
  · next hlevel =>
    rw [not_and_or, Int32.not_le, Int32.not_le] at hlevel
    exact hlevel

/-- Levels get through both ways. -/
theorem result_severity : ∀ severity : Fin 8,
    (syscallResult (Int32.ofNat severity).toInt64).toInt32 = Int32.ofNat severity := by
  decide

/-- The library returns `-1` where the kernel does. -/
theorem result_error : (syscallResult (-1)).toInt32 = -1 := by
  decide

/-- No level is outside. -/
theorem not_outside : ∀ severity : Fin 8,
    ¬ (Int32.ofNat severity < 0 ∨ Int32.ofNat severity > 7) := by
  decide

/-- Levels compare as their numbers do. -/
theorem severity_gt_iff : ∀ severity level : Fin 8,
    Int32.ofNat severity > Int32.ofNat level ↔ ¬ severity ≤ level := by
  decide

/-- There is a prefix for each level. -/
theorem levelPrefixes_severity : ∀ severity : Fin 8,
    levelPrefixes[(Int32.ofNat severity).toNatClampNeg]? =
      some (levelPrefixes.getD severity []) := by
  decide

/-! ## Messages -/

/-- **What is printed was copied**: of the array, no byte that was not written. -/
theorem formatStr_copied (message : Bytes) :
    formatStr 128 (copiedBuf message) = some (cstr (message.take 128)) := by
  have hle : (message.take 128).length ≤ 128 := List.length_take_le 128 message
  rw [copiedBuf]
  generalize message.take 128 = copied at hle ⊢
  by_cases hfull : copied.length = 128
  · rw [hfull, if_neg (not_not.mpr (Nat.sub_self 128)), ← hfull]
    exact formatStr_full copied _
  · have hlt : copied.length < 128 := Nat.lt_of_le_of_ne hle hfull
    have hres : 128 - copied.length = (127 - copied.length) + 1 := by omega
    have hend : 128 - (127 - copied.length + 1) = (copied.map some).length := by
      rw [List.length_map]
      omega
    rw [hres, if_pos (Nat.succ_ne_zero _), hend, List.set_append_right _ _ (Nat.le_refl _),
      Nat.sub_self, List.replicate_succ, List.set_cons_zero]
    exact formatStr_ended copied _ hlt

/-! ## Every run -/

namespace ProcLog.Logs

variable {k : ProcLog} {l : Logger}

/-- **Each call** does what it does to the logger. -/
theorem step (h : k.Logs l) (call : Task × LogCall) :
    ∃ k', k.step call = some (k', (l.answer call).2) ∧ k'.Logs (l.answer call).1 := by
  obtain ⟨current, call⟩ := call
  cases call with
  | getProcLogLevel =>
    refine ⟨k, ?_, h⟩
    rw [ProcLog.step, ProcLog.getProcLogLevel, h.level_eq, Logger.answer]
    dsimp only
    rw [result_severity]
  | setProcLogLevel newLevel =>
    rw [ProcLog.step, Int32.toInt32_toInt64, ProcLog.setProcLogLevel, Logger.answer]
    rcases hseverity : severityOf newLevel with _ | severity
    · have houtside := severityOf_eq_none hseverity
      rw [if_pos (houtside.imp_right Or.inl)]
      exact ⟨k, congrArg some (congrArg (Prod.mk k) result_error), h⟩
    · obtain rfl := severityOf_eq_some hseverity
      have hinside := not_outside severity
      by_cases hroot : current.euid = 0
      · have hpermitted : ¬ (Int32.ofNat severity < 0 ∨ Int32.ofNat severity > 7 ∨
            current.euid ≠ 0) := by
          rintro (hlow | hhigh | hother)
          · exact hinside (Or.inl hlow)
          · exact hinside (Or.inr hhigh)
          · exact hother hroot
        rw [if_neg hpermitted]
        refine ⟨{ k with level := Int32.ofNat severity }, ?_, ?_⟩
        · dsimp only
          rw [result_severity, if_pos hroot]
        · dsimp only
          rw [if_pos hroot]
          exact ⟨rfl, h.lines_eq⟩
      · rw [if_pos (Or.inr (Or.inr hroot))]
        refine ⟨k, ?_, ?_⟩
        · dsimp only
          rw [if_neg hroot]
          exact congrArg some (congrArg (Prod.mk k) result_error)
        · dsimp only
          rwa [if_neg hroot]
  | procLogMessage level message =>
    rw [ProcLog.step, Int32.toInt32_toInt64, ProcLog.procLogMessage, Logger.answer]
    rcases hseverity : severityOf level with _ | severity
    · rw [if_pos (severityOf_eq_none hseverity)]
      exact ⟨k, congrArg some (congrArg (Prod.mk k) result_error), h⟩
    · obtain rfl := severityOf_eq_some hseverity
      rw [if_neg (not_outside severity), h.level_eq]
      dsimp only
      by_cases hlevel : severity ≤ l.level
      · rw [if_neg (fun hgt => (severity_gt_iff _ _).mp hgt hlevel), if_pos hlevel,
          levelPrefixes_severity, Option.bind_some, formatStr_copied, Option.map_some,
          Option.map_some]
        refine ⟨_, congrArg some (congrArg (Prod.mk _) (result_severity severity)), rfl, ?_⟩
        rw [h.lines_eq, List.map_append]
        rfl
      · rw [if_pos ((severity_gt_iff _ _).mpr hlevel), if_neg hlevel, Option.map_some]
        exact ⟨k, congrArg some (congrArg (Prod.mk k) (result_severity severity)), h⟩

end ProcLog.Logs

/-- **The process log is a logger.** Whatever any processes call, in any order and with any
numbers and messages, readable or not: each call returns what it returns of a logger with
eight levels, and the kernel's log is the logger's entries, line by line. The calls never
print a byte that was not copied, and root alone sets the level. -/
theorem proc_log_is_logger (calls : List (Task × LogCall)) :
    ∃ k, Reactions.run ProcLog.step ProcLog.boot calls =
        some (k, (Reactions.answers Logger.answer ⟨0, []⟩ calls).2) ∧
      k.Logs (Reactions.answers Logger.answer ⟨0, []⟩ calls).1 :=
  Reactions.run_of_refinement (R := fun _ => ProcLog.Logs)
    (fun call _ _ _ h => h.step call) calls ⟨rfl, rfl⟩

/-- A message that is not to be logged, and one that can be read for two bytes only. -/
example : Reactions.run ProcLog.step ProcLog.boot
    [(⟨1000, text "sh", 7⟩, .setProcLogLevel 4), (⟨0, text "su", 8⟩, .setProcLogLevel 4),
      (⟨1000, text "sh", 7⟩, .procLogMessage 5 (text "no")),
      (⟨1000, text "sh", 7⟩, .procLogMessage 0 (text "ok"))] =
    some (⟨4, [kern "0" ++ text "PROC_OVERRIDE [sh, 7]: ok\n"]⟩, [-1, 4, 5, 0]) :=
  rfl

end Cop4600
