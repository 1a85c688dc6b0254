import Poesie.Wire
import Poesie.Json
import Poesie.JsonSerialize
import Poesie.Provider
import Poesie.Bulk
import Poesie.MemoryView
import Poesie.Overrun
import Poesie.Transport
import Poesie.LocalData
import Poesie.WriteBack
import Poesie.Conversion
import Poesie.Lifetime
import Poesie.Delivery
import Poesie.ForeignFunction
import Poesie.RangeCheck
import Poesie.Fetch
import Poesie.Finalize
import Poesie.PythonVm
import Poesie.Jx9Value
import Poesie.Jx9Vm
import Poesie.Outcomes
import Poesie.VmCalls
import Poesie.RubyVm
import Poesie.HeapOps
import Poesie.DukCalls
import Poesie.PythonLock
import Poesie.DecodeCost
import Poesie.ViewImage
import Poesie.OrderedMap
import Poesie.Build
import Poesie.PythonValues
import Poesie.RubyValues
import Poesie.Limited
import Poesie.LuaTable
import Poesie.LuaValues
import Poesie.Jx9Map
import Poesie.Jx9Values
import Poesie.VmTerm
import Poesie.IntegerRange
import Poesie.DukObjects
import Poesie.PushedTexts
import Poesie.StackReads
import Poesie.StringBytes
import Poesie.StackValues
import Poesie.VmTexts
import Poesie.StackBalance
import Poesie.JavascriptStack
import Poesie.StackCalls
import Poesie.JavascriptInstall
import Poesie.JavascriptVm
import Poesie.PlainGlobals
import Poesie.Install
import Poesie.Jx9Install
import Poesie.Installed
import Poesie.JavascriptFunctions
import Poesie.HolderLife
import Poesie.Unprotected
import Poesie.LuaStack
import Poesie.ConvProg
import Poesie.Jx9Call
import Poesie.Jx9Release
import Poesie.ByteAccess
import Poesie.ValueGraphs
import Poesie.ValueCycles
import Poesie.KeyForms
import Poesie.LuaAlike
import Poesie.LuaOrder
import Poesie.LuaArrays
import Poesie.Blocks
import Poesie.TwosComplement
import Poesie.LuaMem
import Poesie.PackFormat
import Poesie.MemPack
import Poesie.PackLayout
import Poesie.UnpackSpec
import Poesie.PackCalls
import Poesie.PackRoundTrip
import Poesie.Chains
import Poesie.Jx9Hashmap
import Poesie.Jx9Dict
import Poesie.Jx9Buckets
import Poesie.Jx9Maps
import Poesie.Jx9Rep
import Poesie.Jx9Insert
import Poesie.Jx9Sound
import Poesie.Jx9Refine
import Poesie.Jx9Remove
import Poesie.Jx9Renumber
import Poesie.Jx9Runs
import Poesie.Jx9Filled
