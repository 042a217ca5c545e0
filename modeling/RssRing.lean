import RssRing.ProtocolsBasic.Mult
import RssRing.ProtocolsBasic.MaskLoop
import RssRing.ProtocolsBasic.MultMp
import RssRing.ProtocolsBasic.MaskFreshness
import RssRing.ProtocolsBasic.Open
import RssRing.NodeNetwork.Transport
import RssRing.NodeNetwork.PrgSetup
import RssRing.NodeNetwork.PrgStream
import RssRing.ProtocolsBasic.MultPub
import RssRing.Library.Carry
import RssRing.ProtocolsMl.PadOriginal
import RssRing.ProtocolsMl.ExtractPatch
import RssRing.ProtocolsMl.Im2col
import RssRing.ProtocolsMl.MaxPool
import RssRing.ProtocolsMl.MaxPoolTap
import RssRing.Library.Lifting
import RssRing.ProtocolsBasic.Reveal
import RssRing.ProtocolsComposite.Suite
import RssRing.ProtocolsComposite.BitAdd
import RssRing.ProtocolsComposite.CircleLint
import RssRing.ProtocolsComposite.CircleIndex
import RssRing.ProtocolsComposite.BitLT
import RssRing.ProtocolsRand.RandBit
import RssRing.ProtocolsRand.EdaBit
import RssRing.ProtocolsRand.EdaBitLength
import RssRing.ProtocolsComposite.MSB
import RssRing.ProtocolsComposite.RandBitMSB
import RssRing.ProtocolsComposite.Support
import RssRing.ProtocolsBasic.Masking
import RssRing.ProtocolsRand.EdaBitMp
import RssRing.ProtocolsRand.EdaDealing
import RssRing.ProtocolsRand.PackedDealing
import RssRing.Library.Channels
import RssRing.NodeNetwork.Delivery
import RssRing.ProtocolsBasic.MatMult
import RssRing.Lockstep
import RssRing.ProtocolsComposite.MSBMp
import RssRing.ProtocolsComposite.NBitAdd
import RssRing.ProtocolsBasic.MatProduct
import RssRing.ProtocolsBasic.PwMatMult
import RssRing.ProtocolsBasic.DwMatMult
import RssRing.ProtocolsBasic.MatMult7pc
import RssRing.NodeNetwork.Framing
import RssRing.NodeNetwork.Codec
import RssRing.Utilities.InitIo
import RssRing.Utilities.ReadFile
import RssRing.Utilities.BatchInputMp
import RssRing.Benchmarks.QMobilenet
import RssRing.Benchmarks.Minionn
import RssRing.ProtocolsBasic.WireTap
import RssRing.ProtocolsComposite.TapSuite
import RssRing.ProtocolsRand.RandBitTap
import RssRing.ProtocolsRand.EdaBitTap
import RssRing.ProtocolsComposite.MSBTap
import RssRing.ProtocolsComposite.LTTap
import RssRing.ProtocolsComposite.Convert
import RssRing.ProtocolsComposite.Trunc
import RssRing.ProtocolsComposite.CarryOut
import RssRing.ProtocolsRand.RandBitRoot
import RssRing.ProtocolsComposite.BitAddTruncMp
import RssRing.ProtocolsRand.EdaBitTruncMp
import RssRing.ProtocolsComposite.LT
import RssRing.ProtocolsComposite.EQZ
import RssRing.ProtocolsComposite.OldConvert
import RssRing.ProtocolsBasic.MultFixedB
import RssRing.ProtocolsComposite.B2a
import RssRing.ProtocolsMl.ReLU6
import RssRing.ProtocolsMl.SvmOpsMp
import RssRing.ProtocolsMl.Conv2d
