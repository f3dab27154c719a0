import BspOnMpi.GlobalArray
import BspOnMpi.Messages
import BspOnMpi.Registration
import BspOnMpi.DelivColumn
import BspOnMpi.GlobalHandles
import BspOnMpi.ResetBuffers
import BspOnMpi.ContextHpsend
import BspOnMpi.ContextDrma
import BspOnMpi.ExchangeCounts
import BspOnMpi.ContextAgreement
import BspOnMpi.ContextGrowth
import BspOnMpi.SharedInitialize
import BspOnMpi.ShippedReducers
import BspOnMpi.MapperTables
import BspOnMpi.DrmaOffsets
import BspOnMpi.RegisterLookup
import BspOnMpi.SharedArrayReduce
import BspOnMpi.LocalHistory
import BspOnMpi.ContextDrain
import BspOnMpi.ColumnOffsets
import BspOnMpi.RegisterPack
import BspOnMpi.FixedTables
import BspOnMpi.InnerProduct
import BspOnMpi.Interleaving
import BspOnMpi.ContextThreads
import BspOnMpi.ContextInterleaving
import BspOnMpi.ContextRefinement
import BspOnMpi.ContextSchedules
import BspOnMpi.ContextPortability
