import ImuFirmware.I2C.Transmit
import ImuFirmware.I2C.Receive
import ImuFirmware.I2C.RegisterFile
import ImuFirmware.I2C.BurstRead
import ImuFirmware.I2C.Progress
import ImuFirmware.I2C.StuckWait
import ImuFirmware.I2C.RegisterMap
import ImuFirmware.Polling.Trace
import ImuFirmware.I2C.Requests
import ImuFirmware.Sensors.Readers
import ImuFirmware.Sensors.Footprint
import ImuFirmware.Sensors.Decoding
import ImuFirmware.Sensors.Tilt
import ImuFirmware.Sensors.Setup
import ImuFirmware.Timer.Delay
import ImuFirmware.Timer.Period
import ImuFirmware.Logging.Lifecycle
import ImuFirmware.Timer.Prescaler
import ImuFirmware.Timer.Phase
import ImuFirmware.Board.Button
import ImuFirmware.Fat.Volume
import ImuFirmware.Fat.Table
import ImuFirmware.Fat.Entry
import ImuFirmware.Fat.Chain
import ImuFirmware.Fat.Owners
import ImuFirmware.Fat.History
import ImuFirmware.Fat.File
import ImuFirmware.Fat.Write
import ImuFirmware.Fat.Content
import ImuFirmware.Fat.Puts
import ImuFirmware.Fat.Sync
import ImuFirmware.Fat.Files
import ImuFirmware.Fat.Read
import ImuFirmware.Fat.Lock
import ImuFirmware.Fat.Seek
import ImuFirmware.Fat.Session
import ImuFirmware.Fat.Mount
