import FpgaCnc.Lib.Clocked
import FpgaCnc.Lib.CompareCounter
import FpgaCnc.Hdl.StepGen
import FpgaCnc.Hdl.PwmGen
import FpgaCnc.Hdl.EncoderX1
import FpgaCnc.Hdl.CncModule
import FpgaCnc.Hdl.Watchdog
import FpgaCnc.Lib.Buffer
import FpgaCnc.Lib.CArith
import FpgaCnc.Host.De2
import FpgaCnc.System.StepRate
import FpgaCnc.Lib.IoProg
import FpgaCnc.Firmware.Dm9000a
import FpgaCnc.Firmware.HelloLed
import FpgaCnc.System.CommandPath
import FpgaCnc.System.CommandStream
import FpgaCnc.System.StoppedAxis
import FpgaCnc.System.Freshness
import FpgaCnc.Firmware.Nic
import FpgaCnc.Lib.IoTrace
import FpgaCnc.System.RxSide
import FpgaCnc.System.NicDrain
import FpgaCnc.System.Bus
import FpgaCnc.System.FeedbackPath
import FpgaCnc.System.HostSync
import FpgaCnc.System.SpindlePwm
import FpgaCnc.Hdl.ChargePump
import FpgaCnc.Hdl.StepTiming
import FpgaCnc.Hdl.Quadrature
import FpgaCnc.Hdl.SafeStart
import FpgaCnc.Firmware.RxBuffer
import FpgaCnc.Host.Reply
import FpgaCnc.System.DirectionLoop
import FpgaCnc.Firmware.MainLoop
import FpgaCnc.Firmware.Pendant
import FpgaCnc.Hdl.AxisIsolation
import FpgaCnc.Hdl.RegisterFile
import FpgaCnc.Firmware.RxFifo
import FpgaCnc.Firmware.StandingState
import FpgaCnc.Firmware.PendantLeds
import FpgaCnc.System.Delivery
import FpgaCnc.System.ExactlyOnce
import FpgaCnc.Hdl.Odometer
import FpgaCnc.System.ClosedLoop
import FpgaCnc.System.FeedbackInStep
import FpgaCnc.Firmware.Boot
import FpgaCnc.Lib.IoSim
import FpgaCnc.System.Startup
import FpgaCnc.Hdl.UartRx
import FpgaCnc.Hdl.UartTx
import FpgaCnc.Hdl.Uart
import FpgaCnc.System.PendantLine
import FpgaCnc.System.Distance
import FpgaCnc.Lib.Gaps
