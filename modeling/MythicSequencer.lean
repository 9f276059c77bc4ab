import MythicSequencer.Basic
import MythicSequencer.TxnQueue
import MythicSequencer.Heap
import MythicSequencer.Termination
import MythicSequencer.Refinement
import MythicSequencer.Bounds
import MythicSequencer.Block
import MythicSequencer.Tile
import MythicSequencer.Scratch
import MythicSequencer.TileSpec
import MythicSequencer.Staging
import MythicSequencer.Invariants
import MythicSequencer.Runs
import MythicSequencer.Entries
import MythicSequencer.Sequencer
