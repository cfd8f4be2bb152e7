import Cyque.Stranded
import Cyque.Slots
import Cyque.Caching
import Cyque.Specification
import Cyque.Removal
import Cyque.Timing
import Cyque.Progress
import Cyque.Streaming
import Cyque.Confinement
import Cyque.Description
import Cyque.Stdout
import Cyque.Expansion
import Cyque.Condor
import Cyque.Cancelling
import Cyque.Notices
import Cyque.Accounts
import Cyque.Duty
import Cyque.Tables
import Cyque.Framing
import Cyque.Sandbox
import Cyque.Enclosure
