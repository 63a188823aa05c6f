import LibFirm.Mode
import LibFirm.HeaderCondition
import LibFirm.X86
import LibFirm.Ia32Finish
import LibFirm.MipsLower
import LibFirm.LivenessCheck
import LibFirm.NodeVerify
import LibFirm.SpillSlots
import LibFirm.ScheduleVerify
import LibFirm.PegDepth
import LibFirm.Cfg
import LibFirm.Interference
import LibFirm.RegAllocVerify
import LibFirm.Ir.Graph
import LibFirm.Ir.Alias
import LibFirm.Ir.ValidBase
import LibFirm.Ir.Recognizer
import LibFirm.Ir.Surgery
import LibFirm.Ir.RewireLoop
import LibFirm.Ir.FixupLoop
import LibFirm.Ir.ExcessHeaders
import LibFirm.Ir.DuffRewire
import LibFirm.Ir.UpdateHeader
import LibFirm.Ir.LoopNest
import LibFirm.Ir.LoopHeader
import LibFirm.Ir.Values
import LibFirm.Ir.SwitchHeader
import LibFirm.Ir.SwitchExit
