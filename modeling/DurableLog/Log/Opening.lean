import DurableLog.Journal.Store

/-!
# Opening a log on a disk

The settings are checked first. Without a data directory the log lives in memory. Otherwise the
directory is made if it is missing, the records of an existing log file are recovered and
replayed, and the file is opened for appending.
-/

namespace DurableLog

namespace Disk

/-- The state that the log file leads to; its damaged part is cut off. A missing file is a log
without history. -/
def recoverReplica (d : Disk) : Except Fault Replica × Disk :=
  if d.hasLog then
    match d.recover with
    | (.error fault, d) => (.error fault, d)
    | (.ok (records, _), d) => (Replica.ofRecords records, d)
  else (.ok .empty, d)

/-- The state in which a log opens, and its journal if it has one. -/
def openLog (d : Disk) (config : Config) : Except Fault (Replica × Option Journal) × Disk :=
  match config.fault? with
  | some fault => (.error (.settings fault), d)
  | none =>
    if config.dataDir.isNone then (.ok (.empty, none), d)
    else match d.createDataDir with
      | .error fault => (.error (.file fault), d)
      | .ok d =>
        match d.recoverReplica with
        | (.error fault, d) => (.error fault, d)
        | (.ok replica, d) =>
          match Journal.openAt d config.sync with
          | (.error fault, d) => (.error fault, d)
          | (.ok journal, d) => (.ok (replica, some journal), d)

end Disk

end DurableLog
