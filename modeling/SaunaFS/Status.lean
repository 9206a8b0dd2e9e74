/-
The status codes of `protocol/SFSCommunication.h` that the modelled operations return.
-/
import Mathlib.Tactic

namespace SaunaFS

/-- `SAUNAFS_STATUS_OK` and the `SAUNAFS_ERROR_*` codes -/
inductive Status where
  | ok
  | enoent
  | einval
  | waiting
  | quota
  | nospace
  | nochunkservers
  | nochunk
  | notlocked
  | wronglockid
  | locked
  | chunklost
  | chunkbusy
  | notpossible
  | notdone
  | mismatch
  | eperm
  | enotdir
  | eacces
  | eexist
  | enotempty
  | erofs
  | cantcreatepath
  | indextoobig
  | enotsup
  | erange
  | changeloginconsistent
  | parse
  | metadataversionmismatch
  | delayed
  | unknown
deriving DecidableEq

end SaunaFS
